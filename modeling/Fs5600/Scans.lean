import Fs5600.Effects

/-! The scans for clear bits: the one of `fs_create`, the one of `fs_mkdir`, which picks two at once, and the rounds of
`fs_write`, which sets each bit it has found before it looks for the next. All of them take the lowest clear bits. -/

namespace Fs5600

open Command

/-- Some rounds of the loop of `fs_write`, as far as they concern the bitmap: scan for a clear bit and set it. They end
without a result where a scan finds none. -/
def takeRounds (diskSize : Nat) : Nat → Block → Except Stop (Option (List Nat × Block))
  | 0, map => .ok (some ([], map))
  | left + 1, map =>
      match clearBit map diskSize with
      | .error reason => .error reason
      | .ok none => .ok none
      | .ok (some newBlock) =>
          match takeRounds diskSize left (bitSet map newBlock) with
          | .error reason => .error reason
          | .ok none => .ok none
          | .ok (some (blocks, map')) => .ok (some (newBlock :: blocks, map'))

/-- The clear bits in `[2, disk_size)`. -/
def clearBlocks (map : Block) (diskSize : Nat) : Finset Nat :=
  (Finset.Ico 2 diskSize).filter fun b => bitTest map b = false

/-- The two lowest clear bits in `[2, disk_size)`. -/
structure TwoLowest (map : Block) (diskSize d b : Nat) : Prop where
  first : d ∈ clearBlocks map diskSize
  second : b ∈ clearBlocks map diskSize
  lt : d < b
  lowest : ∀ c ∈ clearBlocks map diskSize, c = d ∨ b ≤ c

/-- The blocks that some rounds took from a bitmap, and the bitmap after them. -/
structure Takes (map : Block) (diskSize rounds : Nat) (blocks : List Nat) (map' : Block) : Prop where
  length : blocks.length = rounds
  nodup : blocks.Nodup
  clear : ∀ b ∈ blocks, b ∈ clearBlocks map diskSize
  set : ∀ b ∈ blocks, bitTest map' b = true
  others : ∀ i, i ∉ blocks → bitTest map' i = bitTest map i

/-- The scans agree on a bitmap: `fs_mkdir` picks the blocks of two rounds of `fs_write`, the first of them as
`fs_create` does, and the rounds take different clear blocks. -/
structure ScansAgree (map : Block) (diskSize : Nat) : Prop where
  returns : ∃ d b, clearBits map diskSize = .ok (d, b)
  pair : ∀ d b, (clearBits map diskSize = .ok (d, b) ∧ d ≠ 0 ∧ b ≠ 0) ↔
    ∃ map', takeRounds diskSize 2 map = .ok (some ([d, b], map'))
  first : ∀ d b, clearBits map diskSize = .ok (d, b) → d ≠ 0 → b ≠ 0 → clearBit map diskSize = .ok (some d)
  lowest : ∀ d b, clearBits map diskSize = .ok (d, b) → d ≠ 0 → b ≠ 0 → TwoLowest map diskSize d b
  full : (∃ d b, clearBits map diskSize = .ok (d, b) ∧ (d = 0 ∨ b = 0)) ↔ (clearBlocks map diskSize).card < 2
  rounds : ∀ k blocks map', takeRounds diskSize k map = .ok (some (blocks, map')) →
    Takes map diskSize k blocks map'
  roundsFull : ∀ k, takeRounds diskSize k map = .ok none ↔ (clearBlocks map diskSize).card < k
  write : ∀ env inode m start k, m.fs.bitmap = map → m.fs.diskSize = diskSize → start + k ≤ numPtrs →
    (∀ blocks map', takeRounds diskSize k map = .ok (some (blocks, map')) →
      ∃ m', allocLoop start k 0 inode env m = (.ok (inode.setPtrs start blocks), m') ∧ m'.fs.bitmap = map') ∧
    (takeRounds diskSize k map = .ok none → (allocLoop start k 0 inode env m).1 = .error (.errno .ENOSPC))

/-- The clear bits in `[2, disk_size)`, from below. -/
def clearList (map : Block) (diskSize : Nat) : List Nat :=
  (List.range' 2 (diskSize - 2)).filter fun b => !bitTest map b

section Lists

variable {map : Block} {diskSize : Nat}

theorem mem_clearList {b : Nat} : b ∈ clearList map diskSize ↔ b ∈ clearBlocks map diskSize := by
  rw [clearList, clearBlocks, List.mem_filter, Finset.mem_filter, List.mem_range'_1, Finset.mem_Ico, Bool.not_eq_true']
  apply and_congr_left
  intro _
  omega

theorem pairwise_clearList (map : Block) (diskSize : Nat) : (clearList map diskSize).Pairwise (· < ·) := by
  unfold clearList
  exact List.Pairwise.filter _ List.pairwise_lt_range'

theorem nodup_clearList (map : Block) (diskSize : Nat) : (clearList map diskSize).Nodup :=
  (pairwise_clearList map diskSize).imp fun h => h.ne

theorem card_clearBlocks (map : Block) (diskSize : Nat) :
    (clearBlocks map diskSize).card = (clearList map diskSize).length := by
  have heq : clearBlocks map diskSize = (clearList map diskSize).toFinset := by
    ext b
    rw [List.mem_toFinset, mem_clearList]
  rw [heq, List.toFinset_card_of_nodup (nodup_clearList map diskSize)]

theorem two_le_of_mem {b : Nat} (h : b ∈ clearList map diskSize) : 2 ≤ b :=
  (Finset.mem_Ico.mp (Finset.mem_filter.mp (mem_clearList.mp h)).1).1

/-- Setting the lowest clear bit leaves the other ones. -/
theorem clearList_bitSet {b : Nat} {rest : List Nat} (hbits : b < bitmapBits)
    (h : clearList map diskSize = b :: rest) : clearList (bitSet map b) diskSize = rest := by
  have hnodup := nodup_clearList map diskSize
  have hsplit : clearList (bitSet map b) diskSize = (clearList map diskSize).filter fun c => c ≠ b := by
    unfold clearList
    rw [List.filter_filter]
    apply List.filter_congr
    intro c _
    rw [bitTest_bitSet map hbits, Bool.not_or]
    exact congrArg (· && _) (by simp [eq_comm])
  rw [h, List.nodup_cons] at hnodup
  rw [hsplit, h, List.filter_cons_of_neg (by simp), List.filter_eq_self]
  exact fun c hc => decide_eq_true fun heq => hnodup.1 (heq ▸ hc)

end Lists

/-! ### What the scans find -/

section Loops

variable {map : Block} {diskSize : Nat}

theorem clearBitLoop_eq {left i : Nat} (h : i + left ≤ bitmapBits) :
    clearBitLoop map left i = .ok ((List.range' i left).filter fun b => !bitTest map b).head? := by
  induction left generalizing i with
  | zero => rfl
  | succ left ih =>
      rw [clearBitLoop, if_neg (by omega), List.range'_succ]
      by_cases hclear : bitTest map i = false
      · rw [if_pos (by simp [hclear]), List.filter_cons_of_pos (by simp [hclear])]
        rfl
      · rw [if_neg (by simpa using hclear), List.filter_cons_of_neg (by simpa using hclear), ih (by omega)]

/-- The loop of `fs_mkdir` once it has an inode. -/
theorem clearBitsLoop_second_eq {left i d : Nat} (hd : d ≠ 0) (h : i + left ≤ bitmapBits) :
    clearBitsLoop map left i d 0 =
      .ok (d, (((List.range' i left).filter fun b => !bitTest map b).head?).getD 0) := by
  induction left generalizing i with
  | zero => rfl
  | succ left ih =>
      rw [clearBitsLoop, if_neg (by omega), if_neg (fun hfirst => hd hfirst.1), List.range'_succ]
      by_cases hclear : bitTest map i = false
      · rw [if_pos ⟨rfl, hclear⟩, List.filter_cons_of_pos (by simp [hclear])]
        rfl
      · rw [if_neg (fun hsecond => hclear hsecond.2), List.filter_cons_of_neg (by simpa using hclear), ih (by omega)]

theorem clearBitsLoop_eq {left i : Nat} (hi : i ≠ 0) (h : i + left ≤ bitmapBits) :
    clearBitsLoop map left i 0 0 =
      .ok ((((List.range' i left).filter fun b => !bitTest map b)[0]?).getD 0,
        (((List.range' i left).filter fun b => !bitTest map b)[1]?).getD 0) := by
  induction left generalizing i with
  | zero => rfl
  | succ left ih =>
      rw [clearBitsLoop, if_neg (by omega), List.range'_succ]
      by_cases hclear : bitTest map i = false
      · rw [if_pos ⟨rfl, hclear⟩, List.filter_cons_of_pos (by simp [hclear]), clearBitsLoop_second_eq hi (by omega),
          List.head?_eq_getElem?]
        rfl
      · rw [if_neg (fun hfirst => hclear hfirst.2), if_neg (fun hsecond => hclear hsecond.2),
          List.filter_cons_of_neg (by simpa using hclear), ih (by omega) (by omega)]

/-- The scan finds the lowest clear bit. -/
theorem clearBit_eq (h : diskSize ≤ bitmapBits) : clearBit map diskSize = .ok (clearList map diskSize).head? := by
  by_cases hsmall : diskSize < 2
  · have hzero : diskSize - 2 = 0 := by omega
    rw [clearBit, clearList, hzero]
    rfl
  · exact clearBitLoop_eq (by omega)

/-- The scan of `fs_mkdir` finds the two lowest ones. -/
theorem clearBits_eq (h : diskSize ≤ bitmapBits) :
    clearBits map diskSize = .ok (((clearList map diskSize)[0]?).getD 0, ((clearList map diskSize)[1]?).getD 0) := by
  by_cases hsmall : diskSize < 2
  · have hzero : diskSize - 2 = 0 := by omega
    rw [clearBits, clearList, hzero]
    rfl
  · exact clearBitsLoop_eq (by decide) (by omega)

/-- The rounds take the lowest clear bits, as many as there are rounds. -/
theorem takeRounds_eq (h : diskSize ≤ bitmapBits) (k : Nat) :
    takeRounds diskSize k map = .ok (if k ≤ (clearList map diskSize).length then
      some ((clearList map diskSize).take k, setAll map ((clearList map diskSize).take k)) else none) := by
  induction k generalizing map with
  | zero => rfl
  | succ k ih =>
      rw [takeRounds, clearBit_eq h]
      rcases hlist : clearList map diskSize with _ | ⟨b, rest⟩
      · rfl
      · have hb : b ∈ clearBlocks map diskSize := mem_clearList.mp (hlist ▸ List.mem_cons_self)
        have hlt := (Finset.mem_Ico.mp (Finset.mem_filter.mp hb).1).2
        have hrest := clearList_bitSet (hlt.trans_le h) hlist
        dsimp only [List.head?_cons]
        rw [ih, hrest, List.length_cons]
        by_cases hk : k ≤ rest.length
        · rw [if_pos hk, if_pos (Nat.succ_le_succ hk)]
          rfl
        · rw [if_neg hk, if_neg (by omega)]

end Loops

/-! ### The loop of `fs_write` -/

section Write

variable {env : Env} {inode : Inode} {m : Machine} {start i k : Nat}

/-- A turn of the loop that finds a block sets its bit and enters it. -/
theorem allocLoop_succ {b : Nat} (hfound : clearBit m.fs.bitmap m.fs.diskSize = .ok (some b))
    (hindex : start + i < numPtrs) :
    allocLoop start (k + 1) i inode env m = allocLoop start k (i + 1)
      { inode with ptrs := Function.update inode.ptrs ⟨start + i, hindex⟩ (UInt32.ofNat b) } env (m.emit (.bitSet b)) := by
  have hbitmap : getBitmap env m = (.ok m.fs.bitmap, m) := rfl
  have hsize : getDiskSize env m = (.ok m.fs.diskSize, m) := rfl
  have hset : bitmapSet b env m = (.ok (), m.emit (.bitSet b)) := if_pos (clearBit_eq_some hfound).2.2.1
  rw [allocLoop, bind_ok hbitmap, bind_ok hsize, hfound, bind_ok (lift_run _ _ _)]
  dsimp only
  rw [bind_ok hset, Inode.setPtr, dif_pos hindex, bind_ok (lift_run _ _ _)]

theorem allocLoop_none (hfound : clearBit m.fs.bitmap m.fs.diskSize = .ok none) :
    (allocLoop start (k + 1) i inode env m).1 = .error (.errno .ENOSPC) := by
  have hbitmap : getBitmap env m = (.ok m.fs.bitmap, m) := rfl
  have hsize : getDiskSize env m = (.ok m.fs.diskSize, m) := rfl
  rw [allocLoop, bind_ok hbitmap, bind_ok hsize, hfound, bind_ok (lift_run _ _ _)]
  rfl

/-- The loop enters the blocks of its rounds into the inode, where there are pointers for them. -/
theorem allocLoop_takes {blocks : List Nat} {map' : Block} (hroom : start + i + k ≤ numPtrs)
    (h : takeRounds m.fs.diskSize k m.fs.bitmap = .ok (some (blocks, map'))) :
    ∃ m', allocLoop start k i inode env m = (.ok (inode.setPtrs (start + i) blocks), m') ∧ m'.fs.bitmap = map' := by
  induction k generalizing i inode m blocks with
  | zero =>
      obtain ⟨rfl, rfl⟩ := Prod.mk.inj (Option.some.inj (Except.ok.inj h))
      exact ⟨m, by rw [Inode.setPtrs_nil]; rfl, rfl⟩
  | succ k ih =>
      rw [takeRounds] at h
      rcases hfound : clearBit m.fs.bitmap m.fs.diskSize with reason | (_ | b)
      · rw [hfound] at h
        cases h
      · rw [hfound] at h
        cases h
      · rw [hfound] at h
        dsimp only at h
        rcases hrest : takeRounds m.fs.diskSize k (bitSet m.fs.bitmap b) with reason | (_ | ⟨rest, last⟩)
        · rw [hrest] at h
          cases h
        · rw [hrest] at h
          cases h
        · rw [hrest] at h
          obtain ⟨rfl, rfl⟩ := Prod.mk.inj (Option.some.inj (Except.ok.inj h))
          have hindex : start + i < numPtrs := by omega
          obtain ⟨m', hrun, hmap⟩ := @ih
            { inode with ptrs := Function.update inode.ptrs ⟨start + i, hindex⟩ (UInt32.ofNat b) } (m.emit (.bitSet b))
            (i + 1) rest (by omega) hrest
          rw [← Nat.add_assoc, Inode.setPtrs_cons inode hindex rest] at hrun
          exact ⟨m', (allocLoop_succ hfound hindex).trans hrun, hmap⟩

/-- The loop fails where its rounds find no block. -/
theorem allocLoop_full (hroom : start + i + k ≤ numPtrs) (h : takeRounds m.fs.diskSize k m.fs.bitmap = .ok none) :
    (allocLoop start k i inode env m).1 = .error (.errno .ENOSPC) := by
  induction k generalizing i inode m with
  | zero => cases h
  | succ k ih =>
      rw [takeRounds] at h
      rcases hfound : clearBit m.fs.bitmap m.fs.diskSize with reason | (_ | b)
      · rw [hfound] at h
        cases h
      · exact allocLoop_none hfound
      · rw [hfound] at h
        dsimp only at h
        have hrest : takeRounds m.fs.diskSize k (bitSet m.fs.bitmap b) = .ok none := by
          rcases hrest : takeRounds m.fs.diskSize k (bitSet m.fs.bitmap b) with reason | (_ | ⟨rest, last⟩)
          · rw [hrest] at h
            cases h
          · rfl
          · rw [hrest] at h
            cases h
        rw [allocLoop_succ hfound (by omega)]
        exact ih (by omega) hrest

end Write

/-! ### The scans together -/

section Agree

variable {map : Block} {diskSize : Nat}

theorem ne_zero_of_clearList {d b : Nat} {rest : List Nat} (h : clearList map diskSize = d :: b :: rest) :
    d ≠ 0 ∧ b ≠ 0 := by
  have hd : 2 ≤ d := two_le_of_mem (h ▸ List.mem_cons_self)
  have hb : 2 ≤ b := two_le_of_mem (h ▸ List.mem_cons_of_mem _ List.mem_cons_self)
  omega

/-- `fs_mkdir` picks the first two blocks of the list. -/
theorem clearBits_eq_ok_iff (h : diskSize ≤ bitmapBits) {d b : Nat} :
    (clearBits map diskSize = .ok (d, b) ∧ d ≠ 0 ∧ b ≠ 0) ↔ ∃ rest, clearList map diskSize = d :: b :: rest := by
  rw [clearBits_eq h]
  rcases hlist : clearList map diskSize with _ | ⟨d', _ | ⟨b', rest⟩⟩
  · apply iff_of_false
    · rintro ⟨hpick, hd, -⟩
      exact hd (Prod.mk.inj (Except.ok.inj hpick)).1.symm
    · rintro ⟨rest, hnil⟩
      cases hnil
  · apply iff_of_false
    · rintro ⟨hpick, -, hb⟩
      exact hb (Prod.mk.inj (Except.ok.inj hpick)).2.symm
    · rintro ⟨rest, hone⟩
      cases hone
  · constructor
    · rintro ⟨hpick, -, -⟩
      obtain ⟨rfl, rfl⟩ := Prod.mk.inj (Except.ok.inj hpick)
      exact ⟨rest, rfl⟩
    · rintro ⟨rest', hsame⟩
      cases hsame
      exact ⟨rfl, ne_zero_of_clearList hlist⟩

/-- So do two rounds of `fs_write`. -/
theorem takeRounds_two_iff (h : diskSize ≤ bitmapBits) {d b : Nat} :
    (∃ map', takeRounds diskSize 2 map = .ok (some ([d, b], map'))) ↔
      ∃ rest, clearList map diskSize = d :: b :: rest := by
  rw [takeRounds_eq h]
  constructor
  · rintro ⟨map', htake⟩
    split at htake
    · obtain ⟨hblocks, -⟩ := Prod.mk.inj (Option.some.inj (Except.ok.inj htake))
      refine ⟨(clearList map diskSize).drop 2, ?_⟩
      calc clearList map diskSize = (clearList map diskSize).take 2 ++ (clearList map diskSize).drop 2 :=
            (List.take_append_drop 2 _).symm
        _ = d :: b :: (clearList map diskSize).drop 2 := by rw [hblocks]; rfl
    · cases htake
  · rintro ⟨rest, hlist⟩
    rw [hlist, if_pos (by simp)]
    exact ⟨_, rfl⟩

/-- There is no space for `fs_mkdir` where fewer than two bits are clear. -/
theorem clearBits_full_iff (h : diskSize ≤ bitmapBits) :
    (∃ d b, clearBits map diskSize = .ok (d, b) ∧ (d = 0 ∨ b = 0)) ↔ (clearBlocks map diskSize).card < 2 := by
  rw [card_clearBlocks, clearBits_eq h]
  rcases hlist : clearList map diskSize with _ | ⟨d, _ | ⟨b, rest⟩⟩
  · exact iff_of_true ⟨0, 0, rfl, Or.inl rfl⟩ (by decide)
  · exact iff_of_true ⟨d, 0, rfl, Or.inr rfl⟩ (by simp)
  · obtain ⟨hd, hb⟩ := ne_zero_of_clearList hlist
    apply iff_of_false _ (by simp)
    rintro ⟨d', b', hpick, hzero⟩
    obtain ⟨rfl, rfl⟩ := Prod.mk.inj (Except.ok.inj hpick)
    exact hzero.elim hd hb

theorem takeRounds_full_iff (h : diskSize ≤ bitmapBits) {k : Nat} :
    takeRounds diskSize k map = .ok none ↔ (clearBlocks map diskSize).card < k := by
  rw [takeRounds_eq h, card_clearBlocks]
  split
  · rename_i hk
    exact iff_of_false (by simp) (not_lt.mpr hk)
  · rename_i hk
    exact iff_of_true rfl (not_le.mp hk)

theorem twoLowest_of_clearList {d b : Nat} {rest : List Nat} (h : clearList map diskSize = d :: b :: rest) :
    TwoLowest map diskSize d b := by
  have hsorted := pairwise_clearList map diskSize
  rw [h, List.pairwise_cons, List.pairwise_cons] at hsorted
  obtain ⟨hd, hb, -⟩ := hsorted
  refine ⟨mem_clearList.mp (h ▸ by simp), mem_clearList.mp (h ▸ by simp), hd b List.mem_cons_self, fun c hc => ?_⟩
  have hmem := mem_clearList.mpr hc
  rw [h, List.mem_cons, List.mem_cons] at hmem
  rcases hmem with rfl | rfl | hmem
  · exact Or.inl rfl
  · exact Or.inr (Nat.le_refl _)
  · exact Or.inr (hb c hmem).le

/-- What some rounds have taken. -/
theorem takes_of_takeRounds (h : diskSize ≤ bitmapBits) {k : Nat} {blocks : List Nat} {map' : Block}
    (htake : takeRounds diskSize k map = .ok (some (blocks, map'))) : Takes map diskSize k blocks map' := by
  rw [takeRounds_eq h] at htake
  split at htake
  · rename_i hk
    obtain ⟨rfl, rfl⟩ := Prod.mk.inj (Option.some.inj (Except.ok.inj htake))
    have hclear : ∀ b ∈ (clearList map diskSize).take k, b ∈ clearBlocks map diskSize := fun b hb =>
      mem_clearList.mp (List.mem_of_mem_take hb)
    have hbits : ∀ b ∈ (clearList map diskSize).take k, b < bitmapBits := fun b hb =>
      (Finset.mem_Ico.mp (Finset.mem_filter.mp (hclear b hb)).1).2.trans_le h
    refine ⟨List.length_take_of_le hk, (nodup_clearList map diskSize).sublist (List.take_sublist _ _), hclear,
      fun b hb => ?_, fun i hi => ?_⟩
    · rw [bitTest_setAll hbits, decide_eq_true hb, Bool.true_or]
    · rw [bitTest_setAll hbits, decide_eq_false hi, Bool.false_or]
  · cases htake

/-- The three scans take the same blocks, on every bitmap and every disk that the bitmap covers. -/
theorem scansAgree (map : Block) (diskSize : Nat) (h : diskSize ≤ bitmapBits) : ScansAgree map diskSize where
  returns := ⟨_, _, clearBits_eq h⟩
  pair _ _ := (clearBits_eq_ok_iff h).trans (takeRounds_two_iff h).symm
  first d b hpick hd hb := by
    obtain ⟨rest, hlist⟩ := (clearBits_eq_ok_iff h).mp ⟨hpick, hd, hb⟩
    rw [clearBit_eq h, hlist]
    rfl
  lowest d b hpick hd hb := by
    obtain ⟨rest, hlist⟩ := (clearBits_eq_ok_iff h).mp ⟨hpick, hd, hb⟩
    exact twoLowest_of_clearList hlist
  full := clearBits_full_iff h
  rounds _ _ _ := takes_of_takeRounds h
  roundsFull _ := takeRounds_full_iff h
  write env inode m start k hmap hsize hroom := by
    subst hmap hsize
    exact ⟨fun blocks map' htake => allocLoop_takes hroom htake, fun hnone => allocLoop_full hroom hnone⟩

/-- A bitmap with bits set and clear, on a disk of eight blocks. -/
theorem scansAgree_mixed : ScansAgree (setAll Block.zero [0, 1, 2, 5]) 8 ∧
    clearBits (setAll Block.zero [0, 1, 2, 5]) 8 = .ok (3, 4) := ⟨scansAgree _ 8 (by decide), by decide +kernel⟩

end Agree

end Fs5600
