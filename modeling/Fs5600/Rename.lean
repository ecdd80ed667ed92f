import Fs5600.Phases

/-! What `fs_rename` does in a sound file system: it puts another name into one entry. -/

namespace Fs5600

open Ownership Command

def Dirent.rename (entry : Dirent) (name : CStr) : Dirent := { entry with name := copyName entry.name name }

section Slots

variable {src dst : CStr} {block : Block} {slots : List (Fin direntsPerBlock)}
  {srcEntry srcEntry' : Option (Fin direntsPerBlock)} {dstEntry dstEntry' : Bool}

theorem strcmp_eq_false {entry : Dirent} {name : CStr} (h : entry.strcmp name = .ok false) :
    entry.storedName ≠ name.bytes := by
  unfold Dirent.strcmp at h
  split at h
  · cases h
  · simpa using h

/-- What the loop over the entries of a block found. -/
structure Scanned (src dst : CStr) (block : Block) (slots : List (Fin direntsPerBlock))
    (srcEntry : Option (Fin direntsPerBlock)) (dstEntry : Bool)
    (srcEntry' : Option (Fin direntsPerBlock)) (dstEntry' : Bool) : Prop where
  source : srcEntry' = srcEntry ∨ ∃ slot ∈ slots, srcEntry' = some slot ∧
    (block.dirent slot).valid = true ∧ (block.dirent slot).storedName = src.bytes
  target : dstEntry' = false → dstEntry = false ∧ ∀ slot ∈ slots, (block.dirent slot).valid = true →
    (block.dirent slot).storedName = src.bytes ∨ (block.dirent slot).storedName ≠ dst.bytes

theorem scanned_of_renameSlots
    (h : renameSlots src dst block slots srcEntry dstEntry = .ok (srcEntry', dstEntry')) :
    Scanned src dst block slots srcEntry dstEntry srcEntry' dstEntry' := by
  induction slots generalizing srcEntry dstEntry with
  | nil =>
      obtain ⟨rfl, rfl⟩ := Prod.mk.inj (Except.ok.inj h)
      exact ⟨Or.inl rfl, fun hfalse => ⟨hfalse, by simp⟩⟩
  | cons slot rest ih =>
      have hsource : ∀ {srcEntry}, (srcEntry' = srcEntry ∨ ∃ s ∈ rest, srcEntry' = some s ∧
            (block.dirent s).valid = true ∧ (block.dirent s).storedName = src.bytes) →
          srcEntry' = srcEntry ∨ ∃ s ∈ slot :: rest, srcEntry' = some s ∧
            (block.dirent s).valid = true ∧ (block.dirent s).storedName = src.bytes :=
        fun hs => hs.imp_right fun ⟨s, hs, hrest⟩ => ⟨s, List.mem_cons_of_mem _ hs, hrest⟩
      unfold renameSlots at h
      split at h
      · rename_i hvalid
        have hrest := ih h
        refine ⟨hsource hrest.source, fun hfalse => ⟨(hrest.target hfalse).1, ?_⟩⟩
        exact List.forall_mem_cons.mpr ⟨fun hv => by simp [hv] at hvalid, (hrest.target hfalse).2⟩
      · rename_i hvalid
        have hvalid' : (block.dirent slot).valid = true := by simpa using hvalid
        split at h
        · cases h
        · rename_i hsrc
          have hrest := ih h
          refine ⟨Or.inr ?_, fun hfalse => ⟨(hrest.target hfalse).1, ?_⟩⟩
          · rcases hrest.source with heq | ⟨s, hs, hfound⟩
            · exact ⟨slot, List.mem_cons_self, heq, hvalid', strcmp_eq_true hsrc⟩
            · exact ⟨s, List.mem_cons_of_mem _ hs, hfound⟩
          · exact List.forall_mem_cons.mpr ⟨fun _ => Or.inl (strcmp_eq_true hsrc), (hrest.target hfalse).2⟩
        · split at h
          · cases h
          · have hrest := ih h
            exact ⟨hsource hrest.source, fun hfalse => absurd (hrest.target hfalse).1 (by decide)⟩
          · rename_i hdst
            have hrest := ih h
            refine ⟨hsource hrest.source, fun hfalse => ⟨(hrest.target hfalse).1, ?_⟩⟩
            exact List.forall_mem_cons.mpr ⟨fun _ => Or.inr (strcmp_eq_false hdst), (hrest.target hfalse).2⟩

end Slots

/-! ### The loop over the blocks -/

/-- No entry of the directory before a block is named `dst`, unless that is also `src`. -/
def Unnamed (disk : Nat → Block) (dir : Nat) (src dst : CStr) (index : Nat) : Prop :=
  ∀ slot : Slot, slot.1.val < index → (direntAt disk dir slot).valid = true →
    (direntAt disk dir slot).storedName = src.bytes ∨ (direntAt disk dir slot).storedName ≠ dst.bytes

/-- How the loop over the blocks of the directory ends. -/
inductive RenameLoop (fs : Fs) (dir : Nat) (src dst : CStr) (bound : Nat) :
    Except Stop Int → List Event → Prop
  | stops (reason : Stop) : RenameLoop fs dir src dst bound (.error reason) []
  | done {slot : Slot} (hslot : slot.1.val < bound) (hvalid : (direntAt fs.disk dir slot).valid = true)
      (hname : (direntAt fs.disk dir slot).storedName = src.bytes)
      (hfree : Unnamed fs.disk dir src dst (slot.1.val + 1)) :
      RenameLoop fs dir src dst bound (.ok 0)
        [.blockWrite ((inodeAt fs.disk dir).ptrs slot.1).toNat
          ((fs.disk ((inodeAt fs.disk dir).ptrs slot.1).toNat).setDirent slot.2
            ((direntAt fs.disk dir slot).rename dst))]

theorem acts_renameLoop {env : Env} {fs : Fs} {dir : Nat} {src dst : CStr}
    (hwritable : ∀ i : Fin numPtrs, i.val < (inodeAt fs.disk dir).dirBlocks →
      Writable ((inodeAt fs.disk dir).ptrs i).toNat) {left index : Nat} {dstEntry : Bool}
    (hbound : index + left = (inodeAt fs.disk dir).dirBlocks)
    (hearlier : dstEntry = false → Unnamed fs.disk dir src dst index) :
    Acts env fs (renameLoop src dst (inodeAt fs.disk dir) left index dstEntry)
      (RenameLoop fs dir src dst (inodeAt fs.disk dir).dirBlocks) := by
  induction left generalizing index dstEntry with
  | zero => exact .stop (.stops _)
  | succ left ih =>
      unfold renameLoop
      split
      · rename_i hindex
        refine .read (reads_blockRead _) (fun reason _ => .stops reason) fun block hblock => ?_
        obtain rfl := Except.ok.inj hblock
        refine .read (Follows.lift _) (fun reason _ => .stops reason) ?_
        rintro ⟨srcEntry, dstEntry'⟩ hscan
        have hscanned := scanned_of_renameSlots hscan
        have hunnamed : dstEntry' = false → Unnamed fs.disk dir src dst (index + 1) := by
          intro hfalse slot hlt hvalid
          obtain ⟨hbefore, hhere⟩ := hscanned.target hfalse
          rcases Nat.lt_succ_iff_lt_or_eq.mp hlt with hlt | heq
          · exact hearlier hbefore slot hlt hvalid
          · obtain ⟨i, s⟩ := slot
            obtain rfl : i = ⟨index, hindex⟩ := Fin.ext heq
            exact hhere s (List.mem_finRange _) hvalid
        rcases srcEntry with _ | slot
        · exact ih (by omega) hunnamed
        · cases dstEntry' with
          | true => exact .stop (.stops _)
          | false =>
              obtain hnone | ⟨s, -, hs, hvalid, hname⟩ := hscanned.source
              · cases hnone
              · obtain rfl := Option.some.inj hs
                have hlt : index < (inodeAt fs.disk dir).dirBlocks := by omega
                exact ⟨_, _, does_bind_read (does_blockWrite (hwritable ⟨index, hindex⟩ hlt) _) (Follows.pure 0),
                  @RenameLoop.done fs dir src dst _ (⟨index, hindex⟩, slot) hlt hvalid hname (hunnamed rfl)⟩
      · exact .stop (.stops _)

/-! ### `fs_rename` -/

/-- How `fs_rename` ends: early, or with another name in one entry of the directory that both paths have
as their parent. -/
inductive Rename (limits : Limits) (fs : Fs) (srcPath dstPath : CStr) : Except Stop Int → List Event → Prop
  | stops (reason : Stop) : Rename limits fs srcPath dstPath (.error reason) []
  | done {inum dir : Nat} {initSrc initDst : List CStr} {src dst : CStr} {slot : Slot}
      (htranslate : translateIn limits fs.disk srcPath = .ok (inum, inodeAt fs.disk inum))
      (hsrc : resolvePath (pathparse srcPath) = initSrc ++ [src])
      (hdst : resolvePath (pathparse dstPath) = initDst ++ [dst])
      (hsrcParent : descend fs.disk 2 initSrc = .ok dir) (hdstParent : descend fs.disk 2 initDst = .ok dir)
      (hslot : HasSlot fs.disk dir slot) (hvalid : (direntAt fs.disk dir slot).valid = true)
      (hname : (direntAt fs.disk dir slot).storedName = src.bytes)
      (hfree : Unnamed fs.disk dir src dst (slot.1.val + 1)) :
      Rename limits fs srcPath dstPath (.ok 0)
        [.blockWrite ((inodeAt fs.disk dir).ptrs slot.1).toNat
          ((fs.disk ((inodeAt fs.disk dir).ptrs slot.1).toNat).setDirent slot.2
            ((direntAt fs.disk dir slot).rename dst))]

theorem toENOENT_ne_fault (reason : Stop) (h : reason ≠ .fault) : toENOENT reason ≠ .fault := by
  cases reason with
  | errno code => simp [toENOENT]
  | fault => exact absurd rfl h

theorem mapError_eq_ok {ε α : Type} {f : ε → ε} {value : Except ε α} {a : α}
    (h : value.mapError f = .ok a) : value = .ok a := by
  cases value with
  | error reason => cases h
  | ok a' => exact h

theorem acts_fsRename {env : Env} {fs : Fs} (h : Sound fs) (srcPath dstPath : CStr) :
    Acts env fs (fsRename srcPath dstPath) (Rename env.limits fs srcPath dstPath) := by
  have hread : ∀ path, Reads env fs (mapStop toENOENT (translate path))
      ((translateIn env.limits fs.disk path).mapError toENOENT) := fun path =>
    reads_mapStop toENOENT_ne_fault (reads_translate path)
  refine .read (hread srcPath) (fun reason _ => .stops reason) ?_
  rintro ⟨inum, inode⟩ htranslate
  replace htranslate := mapError_eq_ok htranslate
  obtain ⟨-, rfl⟩ := reach_of_translateIn htranslate
  refine .read (reads_lastComponent _) (fun reason _ => .stops reason) fun src hsrc => ?_
  refine .read (reads_lastComponent _) (fun reason _ => .stops reason) fun dst hdst => ?_
  obtain ⟨initSrc, hsrc⟩ := lastComponentIn_eq_ok hsrc
  obtain ⟨initDst, hdst⟩ := lastComponentIn_eq_ok hdst
  have hwalk : ∀ {path : CStr} {init : List CStr} {name : CStr}, resolvePath (pathparse path) = init ++ [name] →
      ∀ {inum : Nat} {inode : Inode}, translateIn env.limits fs.disk (joinPath init) = .ok (inum, inode) →
        descend fs.disk 2 init = .ok inum ∧ inode = inodeAt fs.disk inum := by
    intro path init name hsplit inum inode htranslate
    obtain ⟨hnames, hlength⟩ := resolved_components path
    rw [hsplit] at hnames hlength
    rw [List.length_append] at hlength
    exact translateIn_joinPath (fun c hc => hnames c (List.mem_append_left _ hc)) (by omega) htranslate
  rw [hsrc, hdst]
  refine .read (reads_parentPath _) (fun reason _ => .stops reason) fun parentSrc hparentSrc => ?_
  refine .read (reads_parentPath _) (fun reason _ => .stops reason) fun parentDst hparentDst => ?_
  obtain rfl := parentPathIn_eq_ok hparentSrc
  obtain rfl := parentPathIn_eq_ok hparentDst
  refine .read (hread _) (fun reason _ => .stops reason) ?_
  rintro ⟨srcParent, srcInode⟩ hsrcWalk
  refine .read (hread _) (fun reason _ => .stops reason) ?_
  rintro ⟨dstParent, parent⟩ hdstWalk
  obtain ⟨hsrcDir, -⟩ := hwalk hsrc (mapError_eq_ok hsrcWalk)
  obtain ⟨hdstDir, rfl⟩ := hwalk hdst (mapError_eq_ok hdstWalk)
  dsimp only
  split
  · exact .stop (.stops _)
  · rename_i hsame
    obtain rfl : srcParent = dstParent := not_ne_iff.mp hsame
    split
    · exact .stop (.stops _)
    · rename_i hmode
      have hmode' : S_ISDIR (inodeAt fs.disk srcParent).mode = true := by simpa using hmode
      have hreach := reach_of_descend hsrcDir
      have hwritable : ∀ i : Fin numPtrs, i.val < (inodeAt fs.disk srcParent).dirBlocks →
          Writable ((inodeAt fs.disk srcParent).ptrs i).toNat := fun i hi => by
        have hslot : HasSlot fs.disk srcParent (i, 0) := ⟨hmode', hi⟩
        exact h.writable (Graph.Uses.cell hreach hslot.cell).inUse
      have hloop : Acts env fs (renameLoop src dst _ (inodeAt fs.disk srcParent).dirBlocks 0 false) _ :=
        acts_renameLoop hwritable (Nat.zero_add _) fun _ slot hlt => absurd hlt (Nat.not_lt_zero _)
      obtain ⟨value, plan, hdoes, hpost⟩ := hloop
      refine ⟨value, plan, hdoes, ?_⟩
      cases hpost with
      | stops reason => exact .stops reason
      | done hslot hvalid hname hfree =>
          exact .done htranslate hsrc hdst hsrcDir hdstDir ⟨hmode', hslot⟩ hvalid hname hfree

end Fs5600
