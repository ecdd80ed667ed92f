import Fs5600.GenDisk

/-! What the generator reports. The loop looks at the bitmap before it places a data block, but not before it places an
inode: an inode number that was used before goes unnoticed. -/

namespace Fs5600.GenDisk

/-- The numbers of all lines. -/
def Description.numbers (d : Description) : List Nat := d.items.flatMap Item.numbers

/-- No block has two uses, and what is placed in a block is what its line describes. -/
structure NoneTwice (d : Description) : Prop where
  nodup : d.numbers.Nodup
  reserved : ∀ b ∈ d.numbers, b ≠ 0 ∧ b ≠ 1
  inode : ∀ item ∈ d.items, d.placing.blocks item.common.inum = some (.inode item)
  data : ∀ item ∈ d.items, ∀ i, ∀ hi : i < item.common.blocks.length,
    d.placing.blocks item.common.blocks[i] = some (.data item i)

/-- Every data block of the lines is new where it stands, the numbers before the lines being `seen`. -/
def BlocksNew : List Nat → List Item → Prop
  | _, [] => True
  | seen, item :: rest =>
      (item.common.blocks.Nodup ∧ ∀ b ∈ item.common.blocks, b ∉ item.common.inum :: seen) ∧
        BlocksNew (item.numbers ++ seen) rest

/-- Every inode of the lines is new where it stands. -/
def InumsNew : List Nat → List Item → Prop
  | _, [] => True
  | seen, item :: rest => item.common.inum ∉ seen ∧ InumsNew (item.numbers ++ seen) rest

/-- All numbers are different and new exactly if the blocks and the inodes are. -/
theorem nodup_iff (seen : List Nat) (items : List Item) :
    ((items.flatMap Item.numbers).Nodup ∧ ∀ b ∈ items.flatMap Item.numbers, b ∉ seen) ↔
      BlocksNew seen items ∧ InumsNew seen items := by
  induction items generalizing seen with
  | nil => simp [BlocksNew, InumsNew]
  | cons item rest ih =>
      rw [BlocksNew, InumsNew, List.flatMap_cons, List.nodup_append]
      have hnext := ih (item.numbers ++ seen)
      constructor
      · rintro ⟨⟨hitem, hrest, hdisjoint⟩, hseen⟩
        obtain ⟨hinum, hblocks⟩ := List.nodup_cons.mp hitem
        obtain ⟨hnewBlocks, hnewInums⟩ := hnext.mp ⟨hrest, fun b hb hmem => by
          rcases List.mem_append.mp hmem with hmem | hmem
          · exact hdisjoint b hmem b hb rfl
          · exact hseen b (List.mem_append_right _ hb) hmem⟩
        refine ⟨⟨⟨hblocks, fun b hb hmem => ?_⟩, hnewBlocks⟩, ?_, hnewInums⟩
        · rcases List.mem_cons.mp hmem with rfl | hmem
          · exact hinum hb
          · exact hseen b (List.mem_append_left _ (List.mem_cons_of_mem _ hb)) hmem
        · exact hseen _ (List.mem_append_left _ List.mem_cons_self)
      · rintro ⟨⟨⟨hblocks, hfresh⟩, hnewBlocks⟩, hinum, hnewInums⟩
        obtain ⟨hrest, hdisjoint⟩ := hnext.mpr ⟨hnewBlocks, hnewInums⟩
        refine ⟨⟨?_, hrest, ?_⟩, fun b hb hmem => ?_⟩
        · exact List.nodup_cons.mpr ⟨fun hmem => hfresh _ hmem List.mem_cons_self, hblocks⟩
        · rintro b hb _ hb' rfl
          exact hdisjoint b hb' (List.mem_append_left _ hb)
        · rcases List.mem_append.mp hb with hb | hb
          · rcases List.mem_cons.mp hb with rfl | hb
            · exact hinum hmem
            · exact hfresh b hb (List.mem_cons_of_mem _ hmem)
          · exact hdisjoint b hb (List.mem_append_right _ hmem)

/-! ### The loops -/

section Loops

variable {item : Item} {st : Placing} {seen : List Nat} {items : List Item}

theorem get_placeBlocks (i : Nat) (blocks : List Nat) (st : Placing) (j : Nat) :
    (placeBlocks item i blocks st).blockmap.get j = (decide (j ∈ blocks) || st.blockmap.get j) := by
  induction blocks generalizing i st with
  | nil => simp [placeBlocks]
  | cons b rest ih =>
      have hmem : decide (j ∈ b :: rest) = (decide (j = b) || decide (j ∈ rest)) := by
        rw [← Bool.decide_or]
        exact decide_eq_decide.mpr List.mem_cons
      rw [placeBlocks, ih, Bitmap.get_set, hmem, Bool.or_left_comm, Bool.or_assoc]

/-- The inner loop reports nothing exactly if the blocks are new. -/
theorem errors_placeBlocks (i : Nat) (blocks : List Nat) (st : Placing) :
    (placeBlocks item i blocks st).errors = [] ↔
      st.errors = [] ∧ blocks.Nodup ∧ ∀ b ∈ blocks, st.blockmap.get b = false := by
  induction blocks generalizing i st with
  | nil => simp [placeBlocks]
  | cons b rest ih =>
      rw [placeBlocks, ih, List.nodup_cons, List.forall_mem_cons]
      simp only [Bitmap.get_set, Bool.or_eq_false_iff, decide_eq_false_iff_not]
      have hhead : (if st.blockmap.get b = true then st.errors ++ [b] else st.errors) = [] ↔
          st.errors = [] ∧ st.blockmap.get b = false := by
        cases st.blockmap.get b <;> simp
      rw [hhead]
      constructor
      · rintro ⟨⟨herrors, hb⟩, hrest, hnew⟩
        exact ⟨herrors, ⟨fun hmem => (hnew b hmem).1 rfl, hrest⟩, hb, fun c hc => (hnew c hc).2⟩
      · rintro ⟨herrors, ⟨hmem, hrest⟩, hb, hnew⟩
        exact ⟨⟨herrors, hb⟩, hrest, fun c hc => ⟨fun heq => hmem (heq ▸ hc), hnew c hc⟩⟩

/-- The inner loop places nothing but its blocks. -/
theorem blocks_placeBlocks_of_not_mem (i : Nat) {blocks : List Nat} (st : Placing) {j : Nat} (hj : j ∉ blocks) :
    (placeBlocks item i blocks st).blocks j = st.blocks j := by
  induction blocks generalizing i st with
  | nil => rfl
  | cons b rest ih =>
      obtain ⟨hne, hrest⟩ := not_or.mp (List.mem_cons.not.mp hj)
      rw [placeBlocks, ih _ _ hrest]
      exact Function.update_of_ne hne _ _

theorem blocks_placeBlocks (i : Nat) {blocks : List Nat} (hnodup : blocks.Nodup) (st : Placing) {k : Nat}
    (hk : k < blocks.length) : (placeBlocks item i blocks st).blocks blocks[k] = some (.data item (i + k)) := by
  induction blocks generalizing i st k with
  | nil => exact absurd hk (Nat.not_lt_zero _)
  | cons b rest ih =>
      obtain ⟨hb, hrest⟩ := List.nodup_cons.mp hnodup
      unfold placeBlocks
      cases k with
      | zero =>
          rw [List.getElem_cons_zero, blocks_placeBlocks_of_not_mem _ _ hb, Nat.add_zero]
          exact Function.update_self _ _ _
      | succ k =>
          rw [List.getElem_cons_succ, ih (i + 1) hrest _ (Nat.lt_of_succ_lt_succ hk), Nat.add_right_comm, Nat.add_assoc]

theorem get_placeItem (item : Item) (hseen : ∀ j, st.blockmap.get j = decide (j ∈ seen)) (j : Nat) :
    (placeItem st item).blockmap.get j = decide (j ∈ item.numbers ++ seen) := by
  rw [placeItem, get_placeBlocks, Bitmap.get_set, hseen, ← Bool.decide_or, ← Bool.decide_or]
  apply decide_eq_decide.mpr
  rw [Item.numbers, List.mem_append, List.mem_cons]
  tauto

/-- The whole loop reports nothing exactly if all data blocks are new where they stand. -/
theorem errors_foldl (hseen : ∀ j, st.blockmap.get j = decide (j ∈ seen)) :
    (items.foldl placeItem st).errors = [] ↔ st.errors = [] ∧ BlocksNew seen items := by
  induction items generalizing st seen with
  | nil => simp [BlocksNew]
  | cons item rest ih =>
      rw [List.foldl_cons, ih (get_placeItem item hseen), placeItem, errors_placeBlocks, BlocksNew, and_assoc]
      refine and_congr_right fun _ => and_congr_left fun _ => and_congr_right fun _ => forall₂_congr fun b _ => ?_
      dsimp only
      rw [Bitmap.get_set, hseen, ← Bool.decide_or, decide_eq_false_iff_not, List.mem_cons]

theorem blocks_foldl_of_not_mem {j : Nat} (hj : j ∉ items.flatMap Item.numbers) (st : Placing) :
    (items.foldl placeItem st).blocks j = st.blocks j := by
  induction items generalizing st with
  | nil => rfl
  | cons item rest ih =>
      rw [List.flatMap_cons, List.mem_append, not_or, Item.numbers, List.mem_cons, not_or] at hj
      rw [List.foldl_cons, ih hj.2, placeItem, blocks_placeBlocks_of_not_mem _ _ hj.1.2]
      exact Function.update_of_ne hj.1.1 _ _

/-- Where all numbers are different, every line keeps its places to the end. -/
theorem blocks_foldl (hnodup : (items.flatMap Item.numbers).Nodup) (st : Placing) (hitem : item ∈ items) :
    (items.foldl placeItem st).blocks item.common.inum = some (.inode item) ∧
      ∀ i, ∀ hi : i < item.common.blocks.length,
        (items.foldl placeItem st).blocks item.common.blocks[i] = some (.data item i) := by
  induction items generalizing st with
  | nil => cases hitem
  | cons first rest ih =>
      rw [List.flatMap_cons, List.nodup_append] at hnodup
      obtain ⟨hfirst, hrest, hdisjoint⟩ := hnodup
      rw [List.foldl_cons]
      rcases List.mem_cons.mp hitem with rfl | hitem
      · have hlater : ∀ b ∈ item.numbers, b ∉ rest.flatMap Item.numbers := fun b hb hb' => hdisjoint b hb b hb' rfl
        obtain ⟨hinum, hblocks⟩ := List.nodup_cons.mp hfirst
        constructor
        · rw [blocks_foldl_of_not_mem (hlater _ List.mem_cons_self), placeItem, blocks_placeBlocks_of_not_mem _ _ hinum]
          exact Function.update_self _ _ _
        · intro i hi
          rw [blocks_foldl_of_not_mem (hlater _ (List.mem_cons_of_mem _ (List.getElem_mem hi))), placeItem,
            blocks_placeBlocks _ hblocks _ hi, Nat.zero_add]
      · exact ih hrest _ hitem

end Loops

theorem get_start (j : Nat) : Placing.start.blockmap.get j = decide (j ∈ [0, 1]) := by
  rw [Placing.start, Bitmap.get_set, Bitmap.get_set, Bitmap.get_empty, Bool.or_false, ← Bool.decide_or]
  apply decide_eq_decide.mpr
  rw [List.mem_cons, List.mem_singleton, or_comm]

theorem noneTwice_iff (d : Description) : NoneTwice d ↔ BlocksNew [0, 1] d.items ∧ InumsNew [0, 1] d.items := by
  rw [← nodup_iff]
  constructor
  · intro h
    refine ⟨h.nodup, fun b hb hmem => ?_⟩
    obtain ⟨hzero, hone⟩ := h.reserved b hb
    rcases List.mem_cons.mp hmem with rfl | hmem
    · exact hzero rfl
    · exact hone (List.mem_singleton.mp hmem)
  · rintro ⟨hnodup, hnew⟩
    refine ⟨hnodup, fun b hb => ⟨fun heq => hnew b hb (by simp [heq]), fun heq => hnew b hb (by simp [heq])⟩, ?_, ?_⟩
    · exact fun item hitem => (blocks_foldl hnodup _ hitem).1
    · exact fun item hitem => (blocks_foldl hnodup _ hitem).2

/-- The generator reports every double use, but that of an inode number which was used before, in a description that
has no other one. -/
theorem reportsAll_iff (d : Description) :
    (d.placing.errors = [] → NoneTwice d) ↔ (BlocksNew [0, 1] d.items → InumsNew [0, 1] d.items) := by
  have herrors : d.placing.errors = [] ↔ BlocksNew [0, 1] d.items := by
    rw [Description.placing, errors_foldl get_start]
    exact and_iff_right rfl
  rw [herrors, noneTwice_iff]
  exact forall_congr' fun hnew => and_iff_right hnew

def fileOf (inum : Nat) (blocks : List Nat) : File :=
  ⟨inum, 0, 0, 0o100666, 0, 0, 4096 * blocks.length, blocks⟩

def sharedInode : Description := ⟨8, [fileOf 2 [3], fileOf 2 [4]], [], by decide⟩

/-- Not every double use is reported: two lines with one inode number are not. -/
theorem reportsAll_false : ¬∀ d : Description, d.placing.errors = [] → NoneTwice d := by
  intro h
  have herrors : sharedInode.placing.errors = [] := by decide
  have hnodup := (h sharedInode herrors).nodup
  revert hnodup
  decide

end Fs5600.GenDisk
