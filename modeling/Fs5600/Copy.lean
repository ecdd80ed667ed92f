import Fs5600.Effects

/-! The copy loops of `fs_write` and `fs_read`: what the blocks of a file hold after a write, and which
bytes a read delivers. Byte `x` of a file is byte `x % 4096` of its block `x / 4096`. -/

namespace Fs5600

open Command Replay

/-- The index of a block that holds one of the bytes from `first` up to `last`. -/
def Touches (first last index : Nat) : Prop := ∃ x, first ≤ x ∧ x < last ∧ x / fsBlockSize = index

/-- Byte `x` of a file. -/
def Inode.fileByte (inode : Inode) (disk : Nat → Block) (x : Nat) : UInt8 :=
  (disk (inode.block (x / fsBlockSize))).byte (x % fsBlockSize)

theorem byte_overwrite (block : Block) {offset x : Nat} (data : List UInt8) (hx : x < fsBlockSize) :
    (block.overwrite offset data).byte x =
      if offset ≤ x ∧ x < offset + data.length then data.getD (x - offset) 0 else block.byte x :=
  Block.byte_ofBytes _ hx

/-! ### Traces of block writes -/

section Writes

variable {fs : Fs} {plan : List Event} {P : Nat → Prop}

/-- All events are writes, to blocks with a property. -/
def WritesTo (P : Nat → Prop) (plan : List Event) : Prop :=
  ∀ event ∈ plan, ∃ b block, P b ∧ event = .blockWrite b block

theorem WritesTo.cons {b : Nat} {block : Block} (hb : P b) (h : WritesTo P plan) :
    WritesTo P (.blockWrite b block :: plan) :=
  List.forall_mem_cons.mpr ⟨⟨b, block, hb, rfl⟩, h⟩

theorem WritesTo.mono {Q : Nat → Prop} (h : WritesTo P plan) (himp : ∀ b, P b → Q b) : WritesTo Q plan :=
  fun event hevent => (h event hevent).imp fun _ ⟨block, hb, heq⟩ => ⟨block, himp _ hb, heq⟩

/-- Blocks that are not written stay as they are. -/
theorem WritesTo.disk (h : WritesTo P plan) {b : Nat} (hb : ¬P b) : (fs.replay plan).disk b = fs.disk b := by
  induction plan generalizing fs with
  | nil => rfl
  | cons event plan ih =>
      obtain ⟨b', block, hb', rfl⟩ := h event List.mem_cons_self
      rw [Fs.replay_cons, ih fun e he => h e (List.mem_cons_of_mem _ he)]
      exact Function.update_of_ne (fun heq => hb (by rwa [heq])) _ _

theorem WritesTo.bitmap (h : WritesTo P plan) : (fs.replay plan).bitmap = fs.bitmap := by
  induction plan generalizing fs with
  | nil => rfl
  | cons event plan ih =>
      obtain ⟨b', block, -, rfl⟩ := h event List.mem_cons_self
      rw [Fs.replay_cons, ih fun e he => h e (List.mem_cons_of_mem _ he)]
      rfl

theorem WritesTo.diskSize (h : WritesTo P plan) : (fs.replay plan).diskSize = fs.diskSize := by
  induction plan generalizing fs with
  | nil => rfl
  | cons event plan ih =>
      obtain ⟨b', block, -, rfl⟩ := h event List.mem_cons_self
      rw [Fs.replay_cons, ih fun e he => h e (List.mem_cons_of_mem _ he)]
      rfl

end Writes

/-! ### Writing -/

/-- The bytes of a block after a write to it: those of the buffer where it covers the block. -/
def patched (block : Block) (index : Nat) (buf : List UInt8) (offset bytesWritten x : Nat) : UInt8 :=
  if offset + bytesWritten ≤ fsBlockSize * index + x ∧ fsBlockSize * index + x < offset + buf.length then
    buf.getD (fsBlockSize * index + x - offset) 0
  else block.byte x

/-- One turn of `writeLoop` patches one block. -/
theorem byte_overwrite_eq_patched (block : Block) {buf : List UInt8} {offset bytesWritten x : Nat}
    (hlt : bytesWritten < buf.length) (hx : x < fsBlockSize) (base : Block)
    (hbase : 0 < (offset + bytesWritten) % fsBlockSize ∨
      min (buf.length - bytesWritten) (fsBlockSize - (offset + bytesWritten) % fsBlockSize) < fsBlockSize →
        base = block) :
    (base.overwrite ((offset + bytesWritten) % fsBlockSize)
      ((buf.drop bytesWritten).take
        (min (buf.length - bytesWritten) (fsBlockSize - (offset + bytesWritten) % fsBlockSize)))).byte x =
      patched block ((offset + bytesWritten) / fsBlockSize) buf offset bytesWritten x := by
  simp only [fsBlockSize] at hx hbase ⊢
  have hdiv := Nat.div_add_mod (offset + bytesWritten) 4096
  have hmod : (offset + bytesWritten) % 4096 < 4096 := Nat.mod_lt _ (by omega)
  generalize hq : (offset + bytesWritten) / 4096 = q at *
  generalize ho : (offset + bytesWritten) % 4096 = o at *
  rw [byte_overwrite _ _ hx, patched]
  simp only [fsBlockSize, List.length_take, List.length_drop]
  have hlen : min (min (buf.length - bytesWritten) (4096 - o)) (buf.length - bytesWritten) =
      min (buf.length - bytesWritten) (4096 - o) := by omega
  rw [hlen]
  by_cases hin : o ≤ x ∧ x < o + min (buf.length - bytesWritten) (4096 - o)
  · rw [if_pos hin, if_pos (by omega), List.getD_eq_getElem?_getD, List.getElem?_take, if_pos (by omega),
      List.getElem?_drop, List.getD_eq_getElem?_getD, show bytesWritten + (x - o) = 4096 * q + x - offset by omega]
  · rw [if_neg hin, if_neg (by omega), hbase (by omega)]

/-- The turns after the first of `writeLoop` touch the other blocks. -/
theorem touches_next {buf : List UInt8} {offset bytesWritten q : Nat} (hlt : bytesWritten < buf.length) :
    Touches (offset + (bytesWritten +
        min (buf.length - bytesWritten) (fsBlockSize - (offset + bytesWritten) % fsBlockSize))) (offset + buf.length) q ↔
      Touches (offset + bytesWritten) (offset + buf.length) q ∧ q ≠ (offset + bytesWritten) / fsBlockSize := by
  simp only [Touches, fsBlockSize]
  have hdiv := Nat.div_add_mod (offset + bytesWritten) 4096
  have hmod : (offset + bytesWritten) % 4096 < 4096 := Nat.mod_lt _ (by omega)
  constructor
  · rintro ⟨x, hle, hlast, rfl⟩
    exact ⟨⟨x, by omega, hlast, rfl⟩, by omega⟩
  · rintro ⟨⟨x, hle, hlast, rfl⟩, hne⟩
    exact ⟨x, by omega, hlast, rfl⟩

/-- They patch them as one write of all bytes does. -/
theorem patched_next {buf : List UInt8} {offset bytesWritten q x : Nat} (hlt : bytesWritten < buf.length)
    (hq : Touches (offset + bytesWritten) (offset + buf.length) q) (hne : q ≠ (offset + bytesWritten) / fsBlockSize)
    (hx : x < fsBlockSize) (block : Block) :
    patched block q buf offset (bytesWritten +
      min (buf.length - bytesWritten) (fsBlockSize - (offset + bytesWritten) % fsBlockSize)) x =
      patched block q buf offset bytesWritten x := by
  obtain ⟨y, hy, hlast, hyq⟩ := (touches_next hlt).mpr ⟨hq, hne⟩
  simp only [fsBlockSize] at hy hyq hne hx
  have hdiv := Nat.div_add_mod (offset + bytesWritten) 4096
  have hmod : (offset + bytesWritten) % 4096 < 4096 := Nat.mod_lt _ (by omega)
  simp only [patched, fsBlockSize]
  refine if_congr (and_congr_left fun _ => ?_) rfl rfl
  omega

/-- The loop writes every block that the bytes touch, once, and patches it. -/
theorem does_writeLoop {env : Env} {inode : Inode} {buf : List UInt8} {offset : Nat} (fs : Fs)
    {turns bytesWritten : Nat} (hturns : buf.length ≤ bytesWritten + turns) (hle : bytesWritten ≤ buf.length)
    (hblock : ∀ q, Touches (offset + bytesWritten) (offset + buf.length) q →
      q < numPtrs ∧ Writable (inode.block q))
    (hinj : ∀ q q', Touches (offset + bytesWritten) (offset + buf.length) q →
      Touches (offset + bytesWritten) (offset + buf.length) q' → inode.block q = inode.block q' → q = q') :
    ∃ plan, Does env fs (writeLoop inode buf offset turns bytesWritten) (.ok buf.length) plan ∧
      WritesTo (fun b => ∃ q, Touches (offset + bytesWritten) (offset + buf.length) q ∧ inode.block q = b) plan ∧
      ∀ q, Touches (offset + bytesWritten) (offset + buf.length) q → ∀ x < fsBlockSize,
        ((fs.replay plan).disk (inode.block q)).byte x =
          patched (fs.disk (inode.block q)) q buf offset bytesWritten x := by
  have hend : bytesWritten = buf.length → ∀ q, ¬Touches (offset + bytesWritten) (offset + buf.length) q := by
    rintro rfl q ⟨x, hle, hlt, -⟩
    omega
  induction turns generalizing fs bytesWritten with
  | zero =>
      obtain rfl : bytesWritten = buf.length := by omega
      exact ⟨[], Follows.pure _, by simp [WritesTo], fun q hq => absurd hq (hend rfl q)⟩
  | succ turns ih =>
      unfold writeLoop
      split
      · rename_i hlt
        set q₀ := (offset + bytesWritten) / fsBlockSize with hq₀
        set blockLen := min (buf.length - bytesWritten)
          (fsBlockSize - (offset + bytesWritten) % fsBlockSize) with hlen
        have htouch₀ : Touches (offset + bytesWritten) (offset + buf.length) q₀ :=
          ⟨offset + bytesWritten, Nat.le_refl _, by omega, rfl⟩
        have hnext : ∀ {q}, Touches (offset + (bytesWritten + blockLen)) (offset + buf.length) q ↔
            Touches (offset + bytesWritten) (offset + buf.length) q ∧ q ≠ q₀ := touches_next hlt
        have hmod : (offset + bytesWritten) % fsBlockSize < fsBlockSize := Nat.mod_lt _ (by decide)
        have hlen₀ : 0 < blockLen ∧ bytesWritten + blockLen ≤ buf.length := by omega
        obtain ⟨hptr, hwritable⟩ := hblock q₀ htouch₀
        set data := (buf.drop bytesWritten).take blockLen with hdata
        -- the block as it is overwritten, and the loop from the next turn on
        have hturn : ∀ base : Block,
            (0 < (offset + bytesWritten) % fsBlockSize ∨ blockLen < fsBlockSize →
              base = fs.disk (inode.block q₀)) →
            ∃ plan, Does env fs (do
                blockWrite (inode.block q₀) (base.overwrite ((offset + bytesWritten) % fsBlockSize) data)
                writeLoop inode buf offset turns (bytesWritten + blockLen)) (.ok buf.length) plan ∧
              WritesTo (fun b => ∃ q, Touches (offset + bytesWritten) (offset + buf.length) q ∧
                inode.block q = b) plan ∧
              ∀ q, Touches (offset + bytesWritten) (offset + buf.length) q → ∀ x < fsBlockSize,
                ((fs.replay plan).disk (inode.block q)).byte x =
                  patched (fs.disk (inode.block q)) q buf offset bytesWritten x := by
          intro base hbase
          obtain ⟨plan, hdoes, hwrites, hbytes⟩ := ih
            (fs.apply (.blockWrite (inode.block q₀) (base.overwrite ((offset + bytesWritten) % fsBlockSize) data)))
            (by omega) hlen₀.2 (fun q hq => hblock q (hnext.mp hq).1)
            (fun q q' hq hq' => hinj q q' (hnext.mp hq).1 (hnext.mp hq').1)
            (by rintro heq q ⟨x, hle, hlt, -⟩; omega)
          refine ⟨_, does_bind (does_blockWrite hwritable _) hdoes,
            .cons ⟨q₀, htouch₀, rfl⟩ (hwrites.mono fun b ⟨q, hq, hb⟩ => ⟨q, (hnext.mp hq).1, hb⟩), ?_⟩
          intro q hq x hx
          by_cases hqq : q = q₀
          · subst hqq
            have hkeep : ¬∃ q, Touches (offset + (bytesWritten + blockLen)) (offset + buf.length) q ∧
                inode.block q = inode.block q₀ := by
              rintro ⟨q, hq, hb⟩
              exact (hnext.mp hq).2 (hinj q q₀ (hnext.mp hq).1 htouch₀ hb)
            rw [Fs.replay_append, hwrites.disk hkeep]
            simp only [Fs.replay_cons, Fs.replay_nil, Fs.apply, Function.update_self]
            exact byte_overwrite_eq_patched _ hlt hx base hbase
          · have hne : inode.block q ≠ inode.block q₀ := fun heq => hqq (hinj q q₀ hq htouch₀ heq)
            have hsame : (fs.apply (.blockWrite (inode.block q₀)
                (base.overwrite ((offset + bytesWritten) % fsBlockSize) data))).disk (inode.block q) =
                fs.disk (inode.block q) := Function.update_of_ne hne _ _
            rw [Fs.replay_append]
            refine (hbytes q (hnext.mpr ⟨hq, hqq⟩) x hx).trans ?_
            rw [hsame]
            exact patched_next hlt hq hqq hx _
        rw [inode.ptr_eq_ok hptr]
        by_cases hread : 0 < (offset + bytesWritten) % fsBlockSize ∨ blockLen < fsBlockSize
        · obtain ⟨plan, hdoes, hpost⟩ := hturn (fs.disk (inode.block q₀)) fun _ => rfl
          refine ⟨plan, does_read_bind (Follows.lift _) ?_, hpost⟩
          dsimp only
          rw [if_pos hread]
          exact does_read_bind (reads_blockRead _) hdoes
        · obtain ⟨plan, hdoes, hpost⟩ := hturn Block.zero fun h => absurd h hread
          refine ⟨plan, does_read_bind (Follows.lift _) ?_, hpost⟩
          dsimp only
          rw [if_neg hread]
          exact does_read_bind (Follows.pure _) hdoes
      · obtain rfl : bytesWritten = buf.length := by omega
        exact ⟨[], Follows.pure _, by simp [WritesTo], fun q hq => absurd hq (hend rfl q)⟩

end Fs5600
