import Fs5600.Changed
import Fs5600.Created

/-! One shape for all requests on paths without dots. A request from a sound state does nothing to the
tree, or it takes effect with one of its block writes: the events before that write leave the old tree
as it is, the events after it leave the new one. -/

namespace Fs5600

open Ownership Command Replay

/-- The object that a path without dots names. -/
def Names (disk : Nat → Block) (path : CStr) (inum : Nat) : Prop :=
  (tree disk).Leads 2 (labels (pathparse path)) inum

theorem names_of_translateIn {limits : Limits} {disk : Nat → Block} {path : CStr} {inum : Nat} {inode : Inode}
    (hpath : Plain path) (h : translateIn limits disk path = .ok (inum, inode)) : Names disk path inum :=
  leads_of_descend (translateIn_eq_ok hpath.names h).1

/-- What a request does to the tree with the write that takes effect. -/
inductive Commit (env : Env) (fs fs' : Fs) : Op → Prop
  | create {path name : CStr} {mode : UInt32} {dir inum : Nat} {slot : Slot} {claimed : List Nat}
      (hat : CreateAt env.limits fs path name dir)
      (hcreated : Created fs fs' dir slot name inum (newInode env mode) claimed) (hcount : claimed.length = 1) :
      Commit env fs fs' (.create path mode)
  | mkdir {path name : CStr} {mode : UInt32} {dir inum block : Nat} {slot : Slot} {claimed : List Nat}
      (hat : CreateAt env.limits fs path name dir)
      (hcreated : Created fs fs' dir slot name inum (newDirInode env mode block) claimed) (hcount : claimed.length = 2) :
      Commit env fs fs' (.mkdir path mode)
  | unlink {path name : CStr} {dir inum : Nat} {slot : Slot} (hnames : Names fs.disk path inum)
      (hfile : S_ISDIR (inodeAt fs.disk inum).mode = false)
      (hdetached : Detached fs fs' dir slot name.bytes inum) (hbitmap : fs'.bitmap = fs.bitmap)
      (hsize : fs'.diskSize = fs.diskSize) : Commit env fs fs' (.unlink path)
  | rmdir {path name : CStr} {dir inum : Nat} {slot : Slot} {found : Option Hit}
      (hat : RmdirAt env.limits fs path inum dir found) (hnames : Names fs.disk path inum)
      (hdetached : Detached fs fs' dir slot name.bytes inum) (hbitmap : fs'.bitmap = fs.bitmap)
      (hsize : fs'.diskSize = fs.diskSize) : Commit env fs fs' (.rmdir path)
  | rename {srcPath dstPath src dst : CStr} {initSrc initDst : List CStr} {dir inum : Nat} {slot : Slot}
      (hdst : resolvePath (pathparse dstPath) = initDst ++ [dst])
      (hparent : descend fs.disk 2 initDst = .ok dir)
      (hfree : Unnamed fs.disk dir src dst (slot.1.val + 1))
      (hrenamed : Renamed fs fs' dir slot src dst inum)
      (hsrc : resolvePath (pathparse srcPath) = initSrc ++ [src])
      (hsrcParent : descend fs.disk 2 initSrc = .ok dir) : Commit env fs fs' (.rename srcPath dstPath)
  | chmod {path : CStr} {mode : UInt32} {inum : Nat} (hnames : Names fs.disk path inum)
      (hreset : Reset fs fs' inum ((inodeAt fs.disk inum).chmod mode)) : Commit env fs fs' (.chmod path mode)
  | utime {path : CStr} {modtime : Int} {inum : Nat} (hnames : Names fs.disk path inum)
      (hreset : Reset fs fs' inum ((inodeAt fs.disk inum).utime modtime)) :
      Commit env fs fs' (.utime path modtime)
  | truncate {path : CStr} {len : Int} {inum : Nat} (hnames : Names fs.disk path inum)
      (hresized : Resized fs fs' inum ((inodeAt fs.disk inum).truncate env.time))
      (hmarks : ∀ b, (tree fs'.disk).InUse b → bitTest fs.bitmap b = true → bitTest fs'.bitmap b = true) :
      Commit env fs fs' (.truncate path len)
  | write {path : CStr} {buf : List UInt8} {offset inum : Nat} {claimed : List Nat}
      (hnames : Names fs.disk path inum) (hat : WriteAt env.limits fs path buf offset inum claimed)
      (hwritten : Written fs fs' inum buf offset claimed
        ((inodeAt fs.disk inum).grow claimed (offset + buf.length) env.time)) :
      Commit env fs fs' (.write path buf offset)

/-- `fs_rmdir` marks free the block that `ptrs[0]` names. This is a block in use, of another object, where
the directory has no data block and `ptrs[0]` is left over. -/
def FreesLive (limits : Limits) (fs : Fs) (path : CStr) : Prop :=
  ∃ inum dir found, RmdirAt limits fs path inum dir found ∧ (inodeAt fs.disk inum).numBlocks = 0 ∧
    ((inodeAt fs.disk inum).ptrs 0).toNat ≠ inum ∧ (tree fs.disk).InUse ((inodeAt fs.disk inum).ptrs 0).toNat

/-- `fs_rmdir` marks the superblock or the bitmap block free, since `ptrs[0]` names it. -/
def FreesReserved (limits : Limits) (fs : Fs) (path : CStr) : Prop :=
  ∃ inum dir found, RmdirAt limits fs path inum dir found ∧ ((inodeAt fs.disk inum).ptrs 0).toNat < 2

/-- What a request returns on success. -/
def Op.success : Op → Int
  | .write _ buf _ => buf.length
  | _ => 0

/-- The two phases of a request: idle to its end, or with the one write that takes effect. -/
inductive Phases (env : Env) (fs : Fs) (op : Op) : Except Stop Int → List Event → Prop
  | idle {reason : Stop} {plan : List Event} (hundone : Undone fs plan)
      (hsaves : ∀ map, .blockWrite 1 map ∈ plan → Covers map fs.disk) : Phases env fs op (.error reason) plan
  | done {first last : List Event} {lba : Nat} {block : Block}
      (hfirst : ∀ e ∈ first, Silent fs.disk (IsData fs.disk) e ∧ e.Spares)
      (hsaves : ∀ map, .blockWrite 1 map ∈ first → Covers map fs.disk)
      (hcommit : Commit env fs (fs.replay (first ++ [.blockWrite lba block])) op)
      (hsaved : (fs.replay (first ++ [.blockWrite lba block])).disk 1 =
          (fs.replay (first ++ [.blockWrite lba block])).bitmap ∨
        (fs.replay (first ++ [.blockWrite lba block])).disk 1 = fs.disk 1)
      (hlast : ∀ e ∈ last, Silent (fs.replay (first ++ [.blockWrite lba block])).disk (fun _ => False) e)
      (hspares : (∀ path, op = .rmdir path → ¬FreesReserved env.limits fs path) → ∀ e ∈ last, e.Spares)
      (hlastSaves : ∀ map, .blockWrite 1 map ∈ last →
        Covers map (fs.replay (first ++ [.blockWrite lba block])).disk) :
      Phases env fs op (.ok op.success) (first ++ .blockWrite lba block :: last)
  | outside {path : CStr} {inum dir lba : Nat} {found : Option Hit} {block : Block} (hop : op = .rmdir path)
      (hat : RmdirAt env.limits fs path inum dir found) (hempty : (inodeAt fs.disk inum).numBlocks = 0)
      (hcommit : Commit env fs (fs.replay [.blockWrite lba block]) op)
      (hsaved : (fs.replay [.blockWrite lba block]).disk 1 = fs.disk 1) :
      Phases env fs op (.error .fault) [.blockWrite lba block]

section Cases

variable {env : Env} {fs : Fs} {path : CStr} {value : Except Stop Int} {plan : List Event}

theorem phases_idle (op : Op) (reason : Stop) : Phases env fs op (.error reason) [] :=
  .idle (by simp [Undone]) (by simp)

/-- A request that does nothing but the write that takes effect. -/
theorem phases_single {op : Op} {b : Nat} {block : Block} (hb : b ≠ 1) (hsuccess : op.success = 0)
    (hcommit : Commit env fs (fs.replay [.blockWrite b block]) op) :
    Phases env fs op (.ok 0) [.blockWrite b block] := by
  have hphases : Phases env fs op (.ok op.success) ([] ++ .blockWrite b block :: []) :=
    .done (by simp) (by simp) hcommit (Or.inr (Function.update_of_ne hb.symm _ _)) (by simp) (by simp)
      (by simp)
  rwa [hsuccess] at hphases

theorem phases_of_creates {op : Op} {isNew : Inode → Prop} (h : Sound fs) (hsuccess : op.success = 0)
    (hop : ∀ fs' dir slot name inum inode claimed, CreateAt env.limits fs path name dir → isNew inode →
      Created fs fs' dir slot name inum inode claimed → claimed.length = inode.numBlocks + 1 → Commit env fs fs' op)
    (hcreates : Creates isNew env.limits fs path value plan) : Phases env fs op value plan := by
  have hcovers : ∀ {plan}, KeepsMarks fs plan → ∀ map, .blockWrite 1 map ∈ plan → Covers map fs.disk :=
    fun hmarks map hmap b hb => hmarks map hmap b (h.marked b hb)
  cases hcreates with
  | stops hundone hmarks => exact .idle hundone (hcovers hmarks)
  | @done first lba block dir inum slot name inode claimed hundone hmarks hat hnew hcount hcreated =>
      have hphases : Phases env fs op (.ok op.success) (first ++ .blockWrite lba block :: []) :=
        .done (fun e he => ⟨hundone.silent e he, (hundone e he).2⟩) (hcovers hmarks)
          (hop _ _ _ _ _ _ _ hat hnew hcreated hcount) (Or.inl hcreated.saved) (by simp) (by simp) (by simp)
      rwa [hsuccess] at hphases

/-- The entry that a walk found and the one that the second search finds are the same. -/
theorem found_of_translateIn (hpath : Plain path) {inum dir : Nat} {inode : Inode} {name : CStr}
    {found : Option Hit} (htranslate : translateIn env.limits fs.disk path = .ok (inum, inode))
    (hparent : parentDirIn env.limits fs.disk path = .ok (name, inodeAt fs.disk dir))
    (hsearch : searchDirIn (hasName name) (inodeAt fs.disk dir) fs.disk = .ok found) :
    ∃ hit, found = some hit ∧ hit.entry.inode.toNat = inum ∧ S_ISDIR (inodeAt fs.disk dir).mode = true := by
  obtain ⟨hit, hhit, hinum⟩ := search_of_translateIn hpath htranslate hparent
  obtain ⟨-, -, -, -, -, hmode⟩ := parentDirIn_eq_ok hparent
  exact ⟨hit, Except.ok.inj (hsearch.symm.trans hhit), hinum, hmode⟩

theorem RmdirAt.hit (hpath : Plain path) {inum dir : Nat} {found : Option Hit}
    (hat : RmdirAt env.limits fs path inum dir found) :
    ∃ name hit, found = some hit ∧ hit.entry.inode.toNat = inum ∧ S_ISDIR (inodeAt fs.disk dir).mode = true ∧
      searchDirIn (hasName name) (inodeAt fs.disk dir) fs.disk = .ok (some hit) := by
  obtain ⟨name, hparent, hsearch⟩ := hat.parent
  obtain ⟨hit, rfl, hinum, hmode⟩ := found_of_translateIn hpath hat.translate hparent hsearch
  exact ⟨name, hit, rfl, hinum, hmode, hsearch⟩

/-- Marking free what is not in use, and writing the bitmap, after an entry is gone. -/
theorem silent_release (h : Sound fs) {fs' : Fs} {dir inum : Nat} {slot : Slot} {label : List UInt8}
    (hdetached : Detached fs fs' dir slot label inum) {bits : List Nat}
    (hbits : ∀ b ∈ bits, ¬(tree fs'.disk).InUse b) :
    (∀ e ∈ release fs.bitmap bits, Silent fs'.disk (fun _ => False) e) ∧
      ∀ map, .blockWrite 1 map ∈ release fs.bitmap bits → Covers map fs'.disk := by
  refine ⟨?_, ?_⟩
  · intro e he
    rcases List.mem_append.mp he with he | he
    · exact silent_bitClears hbits e he
    · obtain rfl := List.mem_singleton.mp he
      exact fun huse => h.reserved (by decide) (hdetached.inUse huse)
  · intro map hmap b hb
    rcases List.mem_append.mp hmap with hmap | hmap
    · simp at hmap
    · obtain rfl : map = clearAll fs.bitmap bits := by simpa using hmap
      have hnot : b ∉ bits := fun hmem => hbits b hmem hb
      rw [bitTest_clearAll, h.marked b (hdetached.inUse hb), decide_eq_false hnot]
      rfl

theorem spares_release {map : Block} {bits : List Nat} (h : ∀ b ∈ bits, 2 ≤ b) :
    ∀ e ∈ release map bits, e.Spares := by
  intro e he
  rcases List.mem_append.mp he with he | he
  · obtain ⟨b, hb, rfl⟩ := List.mem_map.mp he
    exact h b hb
  · obtain rfl := List.mem_singleton.mp he
    trivial

/-- The write of `removeEntry` leaves the superblock and the bitmap block. -/
theorem removal_reserved (h : Sound fs) {dir : Nat} {name : CStr} {hit : Hit} (hreach : (tree fs.disk).Reach dir)
    (hmode : S_ISDIR (inodeAt fs.disk dir).mode = true)
    (hsearch : searchDirIn (hasName name) (inodeAt fs.disk dir) fs.disk = .ok (some hit)) {b : Nat} (hb : b < 2) :
    (fs.replay (removal (inodeAt fs.disk dir) (some hit))).disk b = fs.disk b := by
  have hptr := (h.range _ (Graph.Uses.cell hreach (hit_slot hmode hsearch).1.cell).inUse).1
  dsimp only at hptr
  refine Function.update_of_ne ?_ _ _
  omega

theorem phases_of_unlink (h : Sound fs) (hfits : Fits fs.disk) (hpath : Plain path)
    (hunlink : Unlink env.limits fs path value plan) : Phases env fs (.unlink path) value plan := by
  cases hunlink with
  | stops reason => exact phases_idle _ reason
  | @done inum dir name found htranslate hfile hparent hdir hsearch =>
      obtain ⟨hit, rfl, rfl, hmode⟩ := found_of_translateIn hpath htranslate hparent hsearch
      have hdetached := detached_removal h hdir hmode hsearch
      have hreach := (reach_of_translateIn htranslate).1
      have hmem := fun b => @mem_released fs _ h hfits hreach b
      have hfreed : ∀ b ∈ freed (inodeAt fs.disk hit.entry.inode.toNat)
          (inodeAt fs.disk hit.entry.inode.toNat).numBlocks 0 ++ [hit.entry.inode.toNat],
          (tree fs.disk).InUse b ∧ ¬(tree (fs.replay (removal (inodeAt fs.disk dir) (some hit))).disk).InUse b := by
        intro b hb
        rcases (hmem b).mp hb with rfl | ⟨i, hcell⟩
        · exact ⟨hreach.inUse, hdetached.removes.not_inUse h.exclusive hdir hdetached.edge⟩
        · exact ⟨(Graph.Uses.cell hreach hcell).inUse,
            hdetached.removes.not_inUse_cell h.exclusive hdir hdetached.edge hcell⟩
      obtain ⟨hlast, hsaves⟩ := silent_release h hdetached fun b hb => (hfreed b hb).2
      have hphases : Phases env fs (.unlink path) (.ok (Op.unlink path).success) ([] ++ .blockWrite _ _ :: release fs.bitmap _) :=
        .done (by simp) (by simp) (.unlink (names_of_translateIn hpath htranslate) hfile hdetached rfl rfl)
          (Or.inr (removal_reserved h hdir hmode hsearch (by decide))) hlast
          (fun _ => spares_release fun b hb => (h.range b (hfreed b hb).1).1) hsaves
      exact hphases

/-- The blocks that `fs_rmdir` marks free are not in use once the entry is gone. -/
theorem not_inUse_of_rmdir (h : Sound fs) {fs' : Fs} {inum dir : Nat} {found : Option Hit} {slot : Slot}
    {label : List UInt8} (hat : RmdirAt env.limits fs path inum dir found) (hlive : ¬FreesLive env.limits fs path)
    (hdetached : Detached fs fs' dir slot label inum) :
    ∀ b ∈ [((inodeAt fs.disk inum).ptrs 0).toNat, inum], ¬(tree fs'.disk).InUse b := by
  have hinum := hdetached.removes.not_inUse h.exclusive hdetached.reach hdetached.edge
  simp only [List.forall_mem_cons, List.not_mem_nil, false_imp_iff, implies_true, and_true]
  refine ⟨?_, hinum⟩
  by_cases hempty : (inodeAt fs.disk inum).numBlocks = 0
  · intro huse
    refine hlive ⟨inum, dir, found, hat, hempty, fun heq => hinum (heq ▸ huse), hdetached.inUse huse⟩
  · have hpos : (0 : Fin numPtrs).val < (inodeAt fs.disk inum).numBlocks := Nat.pos_of_ne_zero hempty
    exact hdetached.removes.not_inUse_cell h.exclusive hdetached.reach hdetached.edge
      (tree_cell_eq_some.mpr ⟨hpos, rfl⟩)

theorem phases_of_rmdir (h : Sound fs) (hpath : Plain path) (hlive : ¬FreesLive env.limits fs path)
    (hrmdir : Rmdir env.limits fs path value plan) : Phases env fs (.rmdir path) value plan := by
  have hremoves : ∀ {inum dir : Nat} {found : Option Hit}, RmdirAt env.limits fs path inum dir found →
      ∃ hit name, found = some hit ∧ (fs.replay (removal (inodeAt fs.disk dir) found)).disk 1 = fs.disk 1 ∧
        Detached fs (fs.replay (removal (inodeAt fs.disk dir) found)) dir (hit.index, hit.slot)
          (CStr.bytes name) inum := by
    intro inum dir found hat
    obtain ⟨name, hit, rfl, rfl, hmode, hsearch⟩ := hat.hit hpath
    exact ⟨hit, name, rfl, removal_reserved h hat.reach hmode hsearch (by decide),
      detached_removal h hat.reach hmode hsearch⟩
  cases hrmdir with
  | stops reason hnot => exact phases_idle _ reason
  | @done inum dir found hat hbit =>
      obtain ⟨hit, name, rfl, hsaved, hdetached⟩ := hremoves hat
      obtain ⟨hlast, hsaves⟩ := silent_release h hdetached (not_inUse_of_rmdir h hat hlive hdetached)
      have hreach := (reach_of_translateIn hat.translate).1
      have hspares : ¬FreesReserved env.limits fs path → ∀ b ∈ [((inodeAt fs.disk inum).ptrs 0).toNat, inum], 2 ≤ b := by
        intro hreserved
        simp only [List.forall_mem_cons, List.not_mem_nil, false_imp_iff, implies_true, and_true]
        exact ⟨not_lt.mp fun hlt => hreserved ⟨inum, dir, _, hat, hlt⟩, (h.range _ hreach.inUse).1⟩
      have hphases : Phases env fs (.rmdir path) (.ok (Op.rmdir path).success)
          ([] ++ .blockWrite _ _ :: release fs.bitmap _) :=
        .done (by simp) (by simp) (.rmdir hat (names_of_translateIn hpath hat.translate) hdetached rfl rfl)
          (Or.inr hsaved) hlast (fun hreserved => spares_release (hspares (hreserved path rfl))) hsaves
      exact hphases
  | @outside inum dir found hat hbit =>
      obtain ⟨hit, name, rfl, hsaved, hdetached⟩ := hremoves hat
      have hempty : (inodeAt fs.disk inum).numBlocks = 0 := by
        by_contra hne
        have hpos : (0 : Fin numPtrs).val < (inodeAt fs.disk inum).numBlocks := Nat.pos_of_ne_zero hne
        have hcell := tree_cell_eq_some.mpr ⟨hpos, rfl⟩
        exact hbit (bitTest_lt (h.marked _ (Graph.Uses.cell (reach_of_translateIn hat.translate).1 hcell).inUse))
      exact .outside rfl hat hempty (.rmdir hat (names_of_translateIn hpath hat.translate) hdetached rfl rfl) hsaved

theorem phases_of_rename (h : Sound fs) {srcPath dstPath : CStr}
    (hrename : Rename env.limits fs srcPath dstPath value plan) :
    Phases env fs (.rename srcPath dstPath) value plan := by
  cases hrename with
  | stops reason => exact phases_idle _ reason
  | done htranslate hsrc hdst hsrcParent hdstParent hslot hvalid hname hfree =>
      have hreach := reach_of_descend hsrcParent
      have hrange := (h.range _ (Graph.Uses.cell hreach hslot.cell).inUse).1
      exact phases_single (by omega) rfl
        (.rename hdst hdstParent hfree (renamed_of_entry h hreach hslot hvalid hname) hsrc hsrcParent)

theorem phases_of_setsInode (h : Sound fs) (hpath : Plain path) {op : Op} {change : Inode → Inode}
    (hsuccess : op.success = 0)
    (hdir : ∀ inode : Inode, S_ISDIR (change inode).mode = S_ISDIR inode.mode)
    (hsize : ∀ inode : Inode, (change inode).size = inode.size)
    (hptrs : ∀ inode : Inode, (change inode).ptrs = inode.ptrs)
    (hop : ∀ fs' inum, Names fs.disk path inum → Reset fs fs' inum (change (inodeAt fs.disk inum)) →
      Commit env fs fs' op)
    (hsets : SetsInode change env.limits fs path value plan) : Phases env fs op value plan := by
  cases hsets with
  | stops reason => exact phases_idle _ reason
  | done htranslate =>
      have hreach := (reach_of_translateIn htranslate).1
      have hrange := (h.range _ hreach.inUse).1
      exact phases_single (by omega) hsuccess (hop _ _ (names_of_translateIn hpath htranslate)
        (reset_of_write h hreach (hdir _) (hsize _) (hptrs _)))

theorem phases_of_write (h : Sound fs) (hpath : Plain path) {buf : List UInt8} {offset : Nat}
    (hlen : offset + buf.length < 2 ^ 31) (hwrite : Write env fs path buf offset value plan) :
    Phases env fs (.write path buf offset) value plan := by
  cases hwrite with
  | stops reason hnot => exact phases_idle _ reason
  | @noSpace inum claimed reason hat halloc =>
      refine .idle (fun e he => ?_) (by simp)
      obtain ⟨b, hb, rfl⟩ := List.mem_map.mp he
      exact ⟨(hat.claimable.range b hb).2.2, trivial⟩
  | @done inum claimed data hat hblocks hfits hwrites hbytes =>
      obtain ⟨hfirst, hsaves, hwritten, hsaved⟩ := written_of_plan h hat hlen hblocks hfits hwrites hbytes
      have hphases : Phases env fs (.write path buf offset) (.ok (Op.write path buf offset).success)
          (claimed.map Event.bitSet ++ data ++
            .blockWrite inum ((inodeAt fs.disk inum).grow claimed (offset + buf.length) env.time).toBlock ::
            if claimed = [] then [] else [.blockWrite 1 (setAll fs.bitmap claimed)]) := by
        refine .done hfirst (fun map hmap => absurd hmap (hsaves map))
          (.write (names_of_translateIn hpath hat.translate) hat hwritten) (Or.inr hsaved) (fun e he => ?_)
          (fun _ e he => ?_) (fun map hmap => ?_)
        · split at he
          · cases he
          · obtain rfl := List.mem_singleton.mp he
            exact fun huse => absurd ((hwritten.sound h).range 1 huse).1 (by decide)
        · split at he
          · cases he
          · obtain rfl := List.mem_singleton.mp he
            trivial
        · split at hmap
          · cases hmap
          · obtain rfl : map = setAll fs.bitmap claimed := by simpa using hmap
            exact hwritten.bitmap ▸ (hwritten.sound h).covers
      rw [← List.append_assoc]
      exact hphases

end Cases

end Fs5600
