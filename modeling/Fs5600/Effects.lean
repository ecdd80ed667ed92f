import Fs5600.Lookup

/-! What the primitives and the loops of the calls do: which events they add to the trace, and what the
state is then. A failed block access may end each of them early (`Does`). -/

namespace Fs5600

open Command

section Primitives

variable {env : Env} {fs : Fs} {α β : Type}

theorem does_bitmapSet {i : Nat} (hi : i < bitmapBits) :
    Does env fs (bitmapSet i) (.ok ()) [.bitSet i] := by
  rintro m rfl
  rw [bitmapSet, if_pos hi]
  exact ⟨[.bitSet i], ⟨rfl, rfl⟩, Or.inl ⟨rfl, rfl⟩⟩

/-- Clearing a bit accesses no block, so nothing ends it early. -/
theorem does_bitmapClear {early : Stop → Prop} {i : Nat} (hi : i < bitmapBits) :
    Follows recorder early env fs (bitmapClear i) (.ok ()) [.bitClear i] := by
  rintro m rfl
  rw [bitmapClear, if_pos hi]
  exact ⟨[.bitClear i], ⟨rfl, rfl⟩, Or.inl ⟨rfl, rfl⟩⟩

/-- `bit_clear` past the end of the bitmap. -/
theorem does_bitmapClear_fault {i : Nat} (hi : ¬i < bitmapBits) :
    Does env fs (bitmapClear i) (.error .fault) [] := by
  rintro m rfl
  rw [bitmapClear, if_neg hi]
  exact ⟨[], .refl m, Or.inl ⟨rfl, rfl⟩⟩

/-- A block number that `block_write` takes. -/
def Writable (lba : Nat) : Prop := 0 < lba ∧ lba < 2 ^ 31

/-- A write succeeds and is recorded, or fails and leaves everything as it was. -/
theorem ensures_tryBlockWrite {lba : Nat} (hlba : Writable lba) (block : Block) :
    Ensures recorder env fs (tryBlockWrite lba block) fun result events =>
      (result = .ok true ∧ events = [.blockWrite lba block]) ∨
        (result = .ok false ∧ events = [] ∧ ¬env.Quiet) := by
  rintro m rfl
  have hbound : ¬(lba = 0 ∨ 2 ^ 31 ≤ lba) := by have := hlba.1; have := hlba.2; omega
  rw [tryBlockWrite, if_neg hbound]
  by_cases hfail : env.writeFails m.writes lba = true
  · rw [if_pos hfail]
    refine ⟨[], ⟨rfl, (List.append_nil _).symm⟩, Or.inr ⟨rfl, rfl, fun hquiet => ?_⟩⟩
    rw [hquiet.2] at hfail
    cases hfail
  · rw [if_neg hfail]
    exact ⟨[.blockWrite lba block], ⟨rfl, rfl⟩, Or.inl ⟨rfl, rfl⟩⟩

theorem does_blockWrite {lba : Nat} (hlba : Writable lba) (block : Block) :
    Does env fs (blockWrite lba block) (.ok ()) [.blockWrite lba block] := by
  refine Ensures.bind (ensures_tryBlockWrite hlba block) ?_ ?_
  · rintro reason events (⟨hresult, -⟩ | ⟨hresult, -⟩) <;> cases hresult
  · rintro written events (⟨hresult, rfl⟩ | ⟨hresult, rfl, hquiet⟩)
    · obtain rfl := Except.ok.inj hresult
      exact Ensures.pure (Or.inl ⟨rfl, rfl⟩)
    · obtain rfl := Except.ok.inj hresult
      exact Ensures.stop (Or.inr ⟨.errno Errno.EIO, ⟨by simp, hquiet⟩, rfl, List.nil_prefix⟩)

theorem writable_bitmap : Writable 1 := ⟨by decide, by decide⟩

/-- Writing the bitmap back writes what is in memory. -/
theorem does_bitmapWrite : Does env fs bitmapWrite (.ok ()) [.blockWrite 1 fs.bitmap] :=
  does_read_bind reads_getBitmap (does_blockWrite writable_bitmap _)

/-- A sequence does one plan after the other. -/
theorem does_bind {call : Call α} {next : α → Call β} {a : α} {value : Except Stop β}
    {plan plan' : List Event} (h : Does env fs call (.ok a) plan)
    (hnext : Does env (fs.replay plan) (next a) value plan') :
    Does env fs (call >>= next) value (plan ++ plan') :=
  Follows.bind_ok h hnext

/-- A sequence whose second part changes nothing does the first plan. -/
theorem does_bind_read {call : Call α} {next : α → Call β} {a : α} {value : Except Stop β}
    {plan : List Event} (h : Does env fs call (.ok a) plan)
    (hnext : Reads env (fs.replay plan) (next a) value) : Does env fs (call >>= next) value plan := by
  have hplan := does_bind h hnext
  rwa [List.append_nil] at hplan

end Primitives

/-- The call does some plan and ends with some value that satisfy the postcondition. -/
def Acts {α : Type} (env : Env) (fs : Fs) (call : Call α) (post : Except Stop α → List Event → Prop) : Prop :=
  ∃ value plan, Does env fs call value plan ∧ post value plan

section Acts

variable {env : Env} {fs : Fs} {α β : Type} {call : Call α} {next : α → Call β}
  {post : Except Stop β → List Event → Prop}

theorem Acts.stop {reason : Stop} (h : post (.error reason) []) : Acts env fs (Command.stop reason) post :=
  ⟨_, [], Follows.stop reason, h⟩

/-- The rule for a first part that only reads. -/
theorem Acts.read {value : Except Stop α} (h : Reads env fs call value)
    (hstop : ∀ reason, value = .error reason → post (.error reason) [])
    (hnext : ∀ a, value = .ok a → Acts env fs (next a) post) : Acts env fs (call >>= next) post := by
  cases value with
  | error reason => exact ⟨_, [], Follows.bind_error h, hstop reason rfl⟩
  | ok a =>
      obtain ⟨value, plan, hdoes, hpost⟩ := hnext a rfl
      exact ⟨value, plan, does_read_bind h hdoes, hpost⟩

end Acts

/-! ### Lists of bit changes -/

def setAll (map : Block) (bits : List Nat) : Block := bits.foldl bitSet map

def clearAll (map : Block) (bits : List Nat) : Block := bits.foldl bitClear map

section Bits

variable {map : Block} {bits : List Nat}

theorem replay_bitSets (fs : Fs) (bits : List Nat) :
    fs.replay (bits.map .bitSet) = { fs with bitmap := setAll fs.bitmap bits } := by
  induction bits generalizing fs with
  | nil => rfl
  | cons b bits ih => exact ih (fs.apply (.bitSet b))

theorem replay_bitClears (fs : Fs) (bits : List Nat) :
    fs.replay (bits.map .bitClear) = { fs with bitmap := clearAll fs.bitmap bits } := by
  induction bits generalizing fs with
  | nil => rfl
  | cons b bits ih => exact ih (fs.apply (.bitClear b))

theorem bitTest_setAll (h : ∀ b ∈ bits, b < bitmapBits) (i : Nat) :
    bitTest (setAll map bits) i = (decide (i ∈ bits) || bitTest map i) := by
  induction bits generalizing map with
  | nil => simp [setAll]
  | cons b bits ih =>
      rw [setAll, List.foldl_cons, ← setAll, ih fun b hb => h b (List.mem_cons_of_mem _ hb),
        bitTest_bitSet _ (h b List.mem_cons_self)]
      by_cases hib : i = b
      · simp [hib]
      · simp [hib, Ne.symm hib]

theorem bitTest_clearAll (i : Nat) :
    bitTest (clearAll map bits) i = (!decide (i ∈ bits) && bitTest map i) := by
  induction bits generalizing map with
  | nil => simp [clearAll]
  | cons b bits ih =>
      rw [clearAll, List.foldl_cons, ← clearAll, ih, bitTest_bitClear]
      by_cases hib : i = b
      · simp [hib]
      · simp [hib, Ne.symm hib]

end Bits

/-! ### Clearing the bits of a file -/

def Inode.block (inode : Inode) (index : Nat) : Nat :=
  if h : index < numPtrs then (inode.ptrs ⟨index, h⟩).toNat else 0

theorem Inode.block_val (inode : Inode) (i : Fin numPtrs) : inode.block i = (inode.ptrs i).toNat :=
  dif_pos i.isLt

theorem Inode.ptr_eq_ok (inode : Inode) {index : Nat} (h : index < numPtrs) :
    inode.ptr index = .ok (inode.block index) := by
  rw [Inode.ptr, Inode.block, dif_pos h, dif_pos h]

/-- The blocks that `freeLoop` marks free. -/
def freed (inode : Inode) : Nat → Nat → List Nat
  | 0, _ => []
  | left + 1, index =>
      if inode.block index ≠ 0 then inode.block index :: freed inode left (index + 1)
      else freed inode left (index + 1)

theorem mem_freed {inode : Inode} {left index b : Nat} :
    b ∈ freed inode left index ↔ b ≠ 0 ∧ ∃ i, index ≤ i ∧ i < index + left ∧ inode.block i = b := by
  induction left generalizing index with
  | zero =>
      apply iff_of_false List.not_mem_nil
      rintro ⟨-, i, hle, hlt, -⟩
      omega
  | succ left ih =>
      have hsplit : (b ≠ 0 ∧ ∃ i, index ≤ i ∧ i < index + (left + 1) ∧ inode.block i = b) ↔
          (inode.block index ≠ 0 ∧ b = inode.block index) ∨ b ∈ freed inode left (index + 1) := by
        rw [ih]
        constructor
        · rintro ⟨hb, i, hle, hlt, rfl⟩
          rcases Nat.eq_or_lt_of_le hle with rfl | hlt'
          · exact Or.inl ⟨hb, rfl⟩
          · exact Or.inr ⟨hb, i, hlt', by omega, rfl⟩
        · rintro (⟨hne, rfl⟩ | ⟨hb, i, hle, hlt, rfl⟩)
          · exact ⟨hne, index, Nat.le_refl _, by omega, rfl⟩
          · exact ⟨hb, i, by omega, by omega, rfl⟩
      rw [hsplit, freed]
      split
      · rename_i hne
        rw [List.mem_cons]
        exact or_congr_left (iff_and_self.mpr fun _ => hne)
      · rename_i hzero
        exact (or_iff_right fun h => hzero h.1).symm

theorem does_freeLoop {early : Stop → Prop} {env : Env} {fs : Fs} {inode : Inode} {left index : Nat}
    (hfits : left = 0 ∨ index + left ≤ numPtrs)
    (hbits : ∀ i, index ≤ i → i < index + left → inode.block i < bitmapBits) :
    Follows recorder early env fs (freeLoop inode left index) (.ok ())
      ((freed inode left index).map .bitClear) := by
  induction left generalizing fs index with
  | zero => exact Follows.pure ()
  | succ left ih =>
      have hindex : index < numPtrs := by omega
      rw [freeLoop, inode.ptr_eq_ok hindex, freed]
      apply Follows.bind_ok (Follows.lift _)
      split
      · exact Follows.bind_ok (does_bitmapClear (hbits index (Nat.le_refl _) (by omega)))
          (ih (by omega) fun i hle hlt => hbits i (by omega) (by omega))
      · exact ih (by omega) fun i hle hlt => hbits i (by omega) (by omega)

/-! ### Looking for a clear bit -/

theorem clearBitLoop_spec {map : Block} {left i : Nat} :
    match clearBitLoop map left i with
    | .ok (some b) => i ≤ b ∧ b < i + left ∧ b < bitmapBits ∧ bitTest map b = false ∧
        ∀ j, i ≤ j → j < b → bitTest map j = true
    | .ok none => ∀ j, i ≤ j → j < i + left → bitTest map j = true
    | .error reason => reason = .fault ∧ bitmapBits < i + left ∧
        ∀ j, i ≤ j → j < bitmapBits → bitTest map j = true := by
  induction left generalizing i with
  | zero =>
      intro j hle hlt
      omega
  | succ left ih =>
      unfold clearBitLoop
      split_ifs with hbound hclear
      · exact ⟨rfl, by omega, fun j hle hlt => by omega⟩
      · exact ⟨Nat.le_refl _, by omega, by omega, by simpa using hclear, fun j hle hlt => by omega⟩
      · have hset : bitTest map i = true := by simpa using hclear
        have hextend : ∀ {P : Nat → Prop}, (∀ j, i + 1 ≤ j → P j → bitTest map j = true) →
            ∀ j, i ≤ j → P j → bitTest map j = true := by
          intro P h j hle hj
          rcases Nat.eq_or_lt_of_le hle with rfl | hlt
          · exact hset
          · exact h j hlt hj
        have hrest := @ih (i + 1)
        rcases hloop : clearBitLoop map left (i + 1) with reason | (_ | b)
        · rw [hloop] at hrest
          exact ⟨hrest.1, by have := hrest.2.1; omega, hextend hrest.2.2⟩
        · rw [hloop] at hrest
          exact hextend fun j hle hlt => hrest j hle (by omega)
        · rw [hloop] at hrest
          obtain ⟨hle, hlt, hbits, hb, hbelow⟩ := hrest
          exact ⟨by omega, by omega, hbits, hb, hextend hbelow⟩

/-- The block that is found lies on the disk behind the bitmap, and its bit is clear. -/
theorem clearBit_eq_some {map : Block} {diskSize b : Nat} (h : clearBit map diskSize = .ok (some b)) :
    2 ≤ b ∧ b < diskSize ∧ b < bitmapBits ∧ bitTest map b = false := by
  have hspec := @clearBitLoop_spec map (diskSize - 2) 2
  rw [← clearBit, h] at hspec
  obtain ⟨hle, hlt, hbits, hclear, -⟩ := hspec
  exact ⟨hle, by omega, hbits, hclear⟩

theorem clearBit_eq_none {map : Block} {diskSize : Nat} (h : clearBit map diskSize = .ok none) {b : Nat}
    (hb : 2 ≤ b) (hlt : b < diskSize) : bitTest map b = true := by
  have hspec := @clearBitLoop_spec map (diskSize - 2) 2
  rw [← clearBit, h] at hspec
  exact hspec b hb (by omega)

theorem clearBit_eq_error {map : Block} {diskSize : Nat} {reason : Stop}
    (h : clearBit map diskSize = .error reason) : reason = .fault ∧ bitmapBits < diskSize := by
  have hspec := @clearBitLoop_spec map (diskSize - 2) 2
  rw [← clearBit, h] at hspec
  refine ⟨hspec.1, ?_⟩
  have := hspec.2.1
  simp only [bitmapBits] at *
  omega

theorem clearBitsLoop_second {map : Block} {left i d d' b : Nat} (hd : d ≠ 0) (hi : i ≠ 0)
    (h : clearBitsLoop map left i d 0 = .ok (d', b)) (hb : b ≠ 0) :
    d' = d ∧ i ≤ b ∧ b < i + left ∧ b < bitmapBits ∧ bitTest map b = false := by
  induction left generalizing i with
  | zero =>
      obtain ⟨-, rfl⟩ := Prod.mk.inj (Except.ok.inj h)
      exact absurd rfl hb
  | succ left ih =>
      unfold clearBitsLoop at h
      split_ifs at h with hbound hfirst hsecond
      · exact absurd hfirst.1 hd
      · obtain ⟨rfl, rfl⟩ := Prod.mk.inj (Except.ok.inj h)
        exact ⟨rfl, Nat.le_refl _, by omega, by omega, hsecond.2⟩
      · obtain ⟨hd', hle, hlt, hrest⟩ := ih (by omega) h
        exact ⟨hd', by omega, by omega, hrest⟩

theorem clearBitsLoop_both {map : Block} {left i d b : Nat} (hi : i ≠ 0)
    (h : clearBitsLoop map left i 0 0 = .ok (d, b)) (hb : b ≠ 0) :
    i ≤ d ∧ d < b ∧ b < i + left ∧ b < bitmapBits ∧ bitTest map d = false ∧ bitTest map b = false := by
  induction left generalizing i with
  | zero =>
      obtain ⟨-, rfl⟩ := Prod.mk.inj (Except.ok.inj h)
      exact absurd rfl hb
  | succ left ih =>
      unfold clearBitsLoop at h
      split_ifs at h with hbound hfirst
      · obtain ⟨rfl, hle, hlt, hbits, hclear⟩ := clearBitsLoop_second hi (by omega) h hb
        exact ⟨Nat.le_refl _, by omega, by omega, hbits, hfirst.2, hclear⟩
      · obtain ⟨hle, hlt, hlt', hrest⟩ := ih (by omega) h
        exact ⟨by omega, hlt, by omega, hrest⟩

/-! ### Claiming blocks -/

/-- Different blocks that a file system can claim: on the disk behind the bitmap, with clear bits. -/
structure Claimable (fs : Fs) (claimed : List Nat) : Prop where
  nodup : claimed.Nodup
  range : ∀ b ∈ claimed, 2 ≤ b ∧ b < fs.diskSize ∧ b < bitmapBits
  clear : ∀ b ∈ claimed, bitTest fs.bitmap b = false

theorem Claimable.nil (fs : Fs) : Claimable fs [] := ⟨List.nodup_nil, by simp, by simp⟩

/-- The two blocks that `fs_mkdir` finds can be claimed. -/
theorem claimable_of_clearBits {fs : Fs} {d b : Nat} (h : clearBits fs.bitmap fs.diskSize = .ok (d, b))
    (hb : b ≠ 0) : Claimable fs [d, b] := by
  obtain ⟨hle, hlt, hlt', hbits, hd, hclear⟩ := clearBitsLoop_both (by omega) h hb
  refine ⟨by simp; omega, ?_, by simp [hd, hclear]⟩
  simp only [List.forall_mem_cons, List.not_mem_nil, false_imp_iff, implies_true, and_true]
  exact ⟨⟨hle, by omega, by omega⟩, by omega, by omega, hbits⟩

/-- The block that `fs_create` finds can be claimed. -/
theorem claimable_of_clearBit {fs : Fs} {b : Nat} (h : clearBit fs.bitmap fs.diskSize = .ok (some b)) :
    Claimable fs [b] := by
  obtain ⟨hle, hlt, hbits, hclear⟩ := clearBit_eq_some h
  exact ⟨List.nodup_singleton b, by simp [hle, hlt, hbits], by simp [hclear]⟩

theorem Claimable.cons {fs : Fs} {b : Nat} {claimed : List Nat}
    (hb : clearBit fs.bitmap fs.diskSize = .ok (some b)) (h : Claimable (fs.apply (.bitSet b)) claimed) :
    Claimable fs (b :: claimed) := by
  obtain ⟨hle, hlt, hbits, hclear⟩ := clearBit_eq_some hb
  have hsplit : ∀ c ∈ claimed, c ≠ b ∧ bitTest fs.bitmap c = false := by
    intro c hc
    have hc' := h.clear c hc
    rw [Fs.apply, bitTest_bitSet _ hbits, Bool.or_eq_false_iff] at hc'
    exact ⟨fun heq => by simp [heq] at hc', hc'.2⟩
  refine ⟨List.nodup_cons.mpr ⟨fun hmem => (hsplit b hmem).1 rfl, h.nodup⟩, ?_, ?_⟩
  · exact List.forall_mem_cons.mpr ⟨⟨hle, hlt, hbits⟩, h.range⟩
  · exact List.forall_mem_cons.mpr ⟨hclear, fun c hc => (hsplit c hc).2⟩

/-- The inode with blocks put into consecutive elements of `ptrs`. -/
def Inode.setPtrs (inode : Inode) (start : Nat) (blocks : List Nat) : Inode :=
  { inode with
    ptrs := fun i =>
      if start ≤ i.val ∧ i.val < start + blocks.length then UInt32.ofNat (blocks.getD (i.val - start) 0)
      else inode.ptrs i }

theorem Inode.setPtrs_nil (inode : Inode) (start : Nat) : inode.setPtrs start [] = inode := by
  have : ∀ i : Fin numPtrs, ¬(start ≤ i.val ∧ i.val < start + ([] : List Nat).length) := fun i h => by
    simp only [List.length_nil] at h
    omega
  simp only [setPtrs, this, if_false]

theorem Inode.setPtrs_cons (inode : Inode) {start b : Nat} (hstart : start < numPtrs) (blocks : List Nat) :
    ({ inode with ptrs := Function.update inode.ptrs ⟨start, hstart⟩ (UInt32.ofNat b) } : Inode).setPtrs
      (start + 1) blocks = inode.setPtrs start (b :: blocks) := by
  simp only [setPtrs, List.length_cons]
  congr 1
  funext i
  by_cases hi : i.val = start
  · obtain rfl : i = ⟨start, hstart⟩ := Fin.ext hi
    simp
  · rw [Function.update_of_ne fun heq => hi (congrArg Fin.val heq)]
    by_cases hrange : start + 1 ≤ i.val ∧ i.val < start + 1 + blocks.length
    · rw [if_pos hrange, if_pos (by omega), show i.val - start = (i.val - (start + 1)) + 1 by omega,
        List.getD_cons_succ]
    · rw [if_neg hrange, if_neg (by omega)]

theorem Inode.block_setPtrs_of_lt (inode : Inode) {start index : Nat} (blocks : List Nat)
    (h : index < start) : (inode.setPtrs start blocks).block index = inode.block index := by
  simp only [block, setPtrs]
  split
  · rw [if_neg (by omega)]
  · rfl

theorem Inode.block_setPtrs {inode : Inode} {start k : Nat} {blocks : List Nat} (hk : k < blocks.length)
    (hstart : start + blocks.length ≤ numPtrs) (hbits : ∀ b ∈ blocks, b < bitmapBits) :
    (inode.setPtrs start blocks).block (start + k) = blocks[k] := by
  have hb := hbits blocks[k] (List.getElem_mem hk)
  simp only [bitmapBits] at hb
  rw [block, dif_pos (by omega), setPtrs]
  simp only
  rw [if_pos (by omega), Nat.add_sub_cancel_left, List.getD_eq_getElem _ _ hk,
    UInt32.toNat_ofNat_of_lt' (by simp only [UInt32.size]; omega)]

/-- How `allocLoop` ends: with the blocks in their places, with no clear bit left, or with an index past
the end of an array. -/
inductive Allocates (fs : Fs) (inode : Inode) (start left : Nat) (claimed : List Nat) :
    Except Stop Inode → Prop
  | done (hlength : claimed.length = left) (hfits : left = 0 ∨ start + left ≤ numPtrs) :
      Allocates fs inode start left claimed (.ok (inode.setPtrs start claimed))
  | noSpace (hlength : claimed.length < left)
      (hall : ∀ b, 2 ≤ b → b < fs.diskSize → bitTest fs.bitmap b = false → b ∈ claimed) :
      Allocates fs inode start left claimed (.error (.errno .ENOSPC))
  | fault (hpos : 0 < left) (hlength : claimed.length ≤ left)
      (hbound : numPtrs < start + claimed.length ∨ bitmapBits < fs.diskSize) :
      Allocates fs inode start left claimed (.error .fault)

/-- A turn of the loop of `fs_write`, from its scan on. -/
theorem does_allocLoop_succ {env : Env} {fs : Fs} {currentBlocks left i : Nat} {inode : Inode}
    {found : Except Stop (Option Nat)} {value : Except Stop Inode} {plan : List Event}
    (hclear : clearBit fs.bitmap fs.diskSize = found)
    (h : Does env fs (do
      match ← lift found with
      | none => err .ENOSPC
      | some newBlock =>
          bitmapSet newBlock
          let inode ← lift (inode.setPtr (currentBlocks + i) newBlock)
          allocLoop currentBlocks left (i + 1) inode) value plan) :
    Does env fs (allocLoop currentBlocks (left + 1) i inode) value plan := by
  subst hclear
  exact does_read_bind reads_getBitmap (does_read_bind reads_getDiskSize h)

theorem does_allocLoop {env : Env} {currentBlocks left : Nat} (fs : Fs) (i : Nat) (inode : Inode) :
    ∃ value claimed, Does env fs (allocLoop currentBlocks left i inode) value (claimed.map .bitSet) ∧
      Claimable fs claimed ∧ Allocates fs inode (currentBlocks + i) left claimed value := by
  induction left generalizing fs i inode with
  | zero =>
      refine ⟨_, [], Follows.pure inode, .nil fs, ?_⟩
      have hdone : Allocates fs inode (currentBlocks + i) 0 [] (.ok (inode.setPtrs (currentBlocks + i) [])) :=
        .done rfl (Or.inl rfl)
      rwa [Inode.setPtrs_nil] at hdone
  | succ left ih =>
      rcases hclear : clearBit fs.bitmap fs.diskSize with reason | (_ | newBlock)
      · obtain ⟨rfl, hbits⟩ := clearBit_eq_error hclear
        have hdoes := @does_allocLoop_succ env fs currentBlocks left i inode _ _ _ hclear (Follows.bind_error (Follows.lift _))
        exact ⟨_, [], hdoes, .nil fs, .fault (Nat.succ_pos _) (Nat.zero_le _) (Or.inr hbits)⟩
      · have hdoes := @does_allocLoop_succ env fs currentBlocks left i inode _ _ _ hclear
          (does_read_bind (Follows.lift _) (Follows.stop _))
        refine ⟨_, [], hdoes, .nil fs, .noSpace (Nat.succ_pos _) fun b hle hlt hb => ?_⟩
        simp [clearBit_eq_none hclear hle hlt] at hb
      · obtain ⟨-, -, hbits, -⟩ := clearBit_eq_some hclear
        have hset : ∀ {value plan}, Does env (fs.apply (.bitSet newBlock)) (do
              let inode ← lift (inode.setPtr (currentBlocks + i) newBlock)
              allocLoop currentBlocks left (i + 1) inode) value plan →
            Does env fs (allocLoop currentBlocks (left + 1) i inode) value (.bitSet newBlock :: plan) :=
          fun h => does_allocLoop_succ hclear (does_read_bind (Follows.lift _) (does_bind (does_bitmapSet hbits) h))
        unfold Inode.setPtr at hset
        split at hset
        · rename_i hindex
          obtain ⟨value, claimed, hdoes, hclaim, halloc⟩ := ih (fs.apply (.bitSet newBlock)) (i + 1)
            { inode with ptrs := Function.update inode.ptrs ⟨currentBlocks + i, hindex⟩ (UInt32.ofNat newBlock) }
          refine ⟨value, newBlock :: claimed, hset (does_read_bind (Follows.lift _) hdoes), hclaim.cons hclear, ?_⟩
          cases halloc with
          | done hlength hfits =>
              have hdone : Allocates fs inode (currentBlocks + i) (left + 1) (newBlock :: claimed)
                  (.ok (inode.setPtrs (currentBlocks + i) (newBlock :: claimed))) :=
                .done (by simp [hlength]) (Or.inr (by omega))
              rwa [← Inode.setPtrs_cons inode hindex claimed] at hdone
          | noSpace hlength hall =>
              refine .noSpace (by simpa using hlength) fun b hle hlt hb => ?_
              by_cases hbn : b = newBlock
              · exact hbn ▸ List.mem_cons_self
              · refine List.mem_cons_of_mem _ (hall b hle hlt ?_)
                rw [Fs.apply, bitTest_bitSet _ hbits, hb]
                simpa using Ne.symm hbn
          | fault _ hlength hbound =>
              refine .fault (Nat.succ_pos _) (by simpa using hlength) ?_
              rcases hbound with hbound | hbound
              · exact Or.inl (by simp only [List.length_cons]; omega)
              · exact Or.inr hbound
        · refine ⟨_, [newBlock], hset (Follows.bind_error (Follows.lift _)), (Claimable.nil _).cons hclear,
            .fault (Nat.succ_pos _) (by simp) (Or.inl ?_)⟩
          simp only [List.length_singleton]
          omega

end Fs5600
