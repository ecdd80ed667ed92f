import Fs5600.OpsMeta

/-! Frames. What the primitive commands keep of the machine, every request keeps, on all of its paths. -/

namespace Fs5600

open Command

/-! ### Walks and other reading -/

section Reads

variable {Rel : Machine → Machine → Prop}

theorem within_mapStop {α : Type} (f : Stop → Stop) {call : Call α} (h : Within Rel call) :
    Within Rel (mapStop f call) := by
  intro env m
  have hcall := h env m
  unfold mapStop
  rcases hrun : call env m with ⟨_ | _, m'⟩ <;> rwa [hrun] at hcall

variable [Std.Refl Rel]

theorem within_err {α : Type} (code : Errno) : Within Rel (err code : Call α) := .stop _

theorem within_fault {α : Type} : Within Rel (fault : Call α) := .stop _

theorem within_ask : Within Rel (ask : Call Env) := fun _ m => refl_of Rel m

theorem within_getBitmap : Within Rel getBitmap := fun _ m => refl_of Rel m

theorem within_getDiskSize : Within Rel getDiskSize := fun _ m => refl_of Rel m

theorem within_lastComponent (resolved : List CStr) : Within Rel (lastComponent resolved) := by
  unfold lastComponent
  split
  · exact .pure _
  · exact within_fault

variable [IsTrans Machine Rel]

theorem within_parentPath (resolved : List CStr) : Within Rel (parentPath resolved) := by
  unfold parentPath
  refine within_ask.bind fun env => ?_
  split
  · exact .pure _
  · exact within_fault

variable (hread : ∀ lba, Within Rel (blockRead lba))

include hread

theorem within_readInode (inum : Nat) : Within Rel (readInode inum) := (hread inum).bind fun _ => .pure _

theorem within_searchDir (test : Dirent → Except Stop Bool) (inode : Inode) : Within Rel (searchDir test inode) := by
  suffices ∀ left index, Within Rel (searchLoop test inode left index) from this _ _
  intro left
  induction left with
  | zero => exact fun index => .pure none
  | succ left ih =>
      intro index
      unfold searchLoop
      split
      · refine (hread _).bind fun block => (Within.lift _).bind fun found => ?_
        cases found with
        | none => exact ih (index + 1)
        | some slot => exact .pure _
      · exact within_fault

theorem within_walkStep (st : WalkState) (component : CStr) : Within Rel (walkStep st component) := by
  unfold walkStep
  split
  · exact .pure _
  · split
    · split <;> exact .pure _
    · refine (within_readInode hread _).bind fun inode => ?_
      split
      · exact within_err _
      · refine (within_searchDir hread _ _).bind fun found => ?_
        cases found with
        | none => exact within_err _
        | some hit =>
            refine within_ask.bind fun env => ?_
            split
            · exact .pure _
            · exact within_fault

theorem within_translate (path : CStr) : Within Rel (translate path) := by
  have hloop : ∀ components st, Within Rel (walkLoop components st) := by
    intro components
    induction components with
    | nil => exact fun st => .pure st
    | cons component rest ih => exact fun st => (within_walkStep hread st component).bind ih
  rw [translate]
  split
  · exact (within_readInode hread 2).bind fun _ => .pure _
  · exact (hloop _ _).bind fun st => (within_readInode hread _).bind fun _ => .pure _

theorem within_parentDir (path : CStr) : Within Rel (parentDir path) := by
  unfold parentDir
  dsimp only
  refine (within_lastComponent _).bind fun name => (within_parentPath _).bind fun parent =>
    (within_translate hread parent).bind fun found => ?_
  split
  · exact within_err _
  · exact .pure _

theorem within_fsGetattr (path : CStr) : Within Rel (fsGetattr path) :=
  (within_translate hread path).bind fun _ => .pure _

theorem within_readLoop (inode : Inode) (offset len turns bytesRead : Nat) :
    Within Rel (readLoop inode offset len turns bytesRead) := by
  induction turns generalizing bytesRead with
  | zero => exact .pure _
  | succ turns ih =>
      unfold readLoop
      split
      · exact (Within.lift _).bind fun ptr => (hread ptr).bind fun block => (ih _).bind fun rest => .pure _
      · exact .pure _

theorem within_fsRead (path : CStr) (len offset : Nat) : Within Rel (fsRead path len offset) := by
  unfold fsRead
  refine (within_translate hread path).bind ?_
  rintro ⟨inum, inode⟩
  dsimp only
  split
  · exact within_err _
  · split
    · exact .pure _
    · exact within_readLoop hread _ _ _ _ _

theorem within_fillLoop (block : Block) (slots : List (Fin direntsPerBlock)) : Within Rel (fillLoop block slots) := by
  induction slots with
  | nil => exact .pure _
  | cons slot rest ih =>
      unfold fillLoop
      split
      · refine (within_readInode hread _).attempt.bind fun result => ?_
        cases result with
        | ok inode => exact (Within.lift _).bind fun name => ih.bind fun others => .pure _
        | error reason => exact ih
      · exact ih

theorem within_fsReaddir (path : CStr) : Within Rel (fsReaddir path) := by
  have hloop : ∀ inode left index, Within Rel (readdirLoop inode left index) := by
    intro inode left
    induction left with
    | zero => exact fun index => .pure _
    | succ left ih =>
        exact fun index => (Within.lift _).bind fun ptr => (hread ptr).bind fun block =>
          (within_fillLoop hread block _).bind fun entries => (ih _).bind fun others => .pure _
  unfold fsReaddir
  refine (within_translate hread path).bind ?_
  rintro ⟨inum, inode⟩
  dsimp only
  split
  · exact within_err _
  · exact hloop _ _ _

end Reads

theorem within_fsStatfs {Rel : Machine → Machine → Prop} [Std.Refl Rel] [IsTrans Machine Rel] :
    Within Rel fsStatfs :=
  within_getDiskSize.bind fun _ => within_getBitmap.bind fun _ => (Within.lift _).bind fun _ => .pure _

theorem within_freeLoop {Rel : Machine → Machine → Prop} [Std.Refl Rel] [IsTrans Machine Rel]
    (hclear : ∀ i, Within Rel (bitmapClear i)) (inode : Inode) (left index : Nat) :
    Within Rel (freeLoop inode left index) := by
  induction left generalizing index with
  | zero => exact .pure ()
  | succ left ih =>
      unfold freeLoop
      refine (Within.lift _).bind fun ptr => ?_
      split
      · exact (hclear ptr).bind fun _ => ih (index + 1)
      · exact ih (index + 1)

/-! ### Requests -/

/-- A relation that is kept by the primitive commands. -/
structure Frame (Rel : Machine → Machine → Prop) : Prop where
  read : ∀ lba, Within Rel (blockRead lba)
  write : ∀ lba block, Within Rel (tryBlockWrite lba block)
  set : ∀ i, Within Rel (bitmapSet i)
  clear : ∀ i, Within Rel (bitmapClear i)

namespace Frame

variable {Rel : Machine → Machine → Prop} [Std.Refl Rel] [IsTrans Machine Rel] (h : Frame Rel)

include h

theorem blockWrite (lba : Nat) (block : Block) : Within Rel (blockWrite lba block) := by
  refine (h.write lba block).bind fun done => ?_
  split
  · exact .pure ()
  · exact within_err _

theorem bitmapWrite : Within Rel bitmapWrite := within_getBitmap.bind fun _ => h.blockWrite _ _

theorem addEntry (parent : Inode) (inum : Nat) (name : CStr) (full : Errno) :
    Within Rel (addEntry parent inum name full) := by
  refine (within_searchDir h.read _ _).bind fun found => ?_
  cases found with
  | none => exact within_err _
  | some hit => exact (h.blockWrite _ _).bind fun _ => .pure 0

theorem fsCreate (path : CStr) (mode : UInt32) : Within Rel (fsCreate path mode) := by
  refine (within_parentDir h.read path).bind fun target => (within_searchDir h.read _ _).bind fun found => ?_
  cases found with
  | some hit => exact within_err _
  | none =>
      refine within_getBitmap.bind fun map => within_getDiskSize.bind fun size => (Within.lift _).bind fun clear => ?_
      cases clear with
      | none => exact within_err _
      | some inum =>
          refine (h.set inum).bind fun _ => h.bitmapWrite.bind fun _ => within_ask.bind fun env =>
            (h.write _ _).bind fun done => ?_
          split
          · exact h.addEntry _ _ _ _
          · exact (h.clear inum).bind fun _ => within_getBitmap.bind fun _ => (h.write _ _).bind fun _ => within_err _

theorem undoMkdir (dirInum dataBlock : Nat) : Within Rel (undoMkdir dirInum dataBlock) :=
  (h.clear dirInum).bind fun _ => (h.clear dataBlock).bind fun _ => within_getBitmap.bind fun _ =>
    (h.write _ _).bind fun _ => within_err _

theorem fsMkdir (path : CStr) (mode : UInt32) : Within Rel (fsMkdir path mode) := by
  refine (within_parentDir h.read path).bind fun target => (within_searchDir h.read _ _).bind fun found => ?_
  cases found with
  | some hit => exact within_err _
  | none =>
      refine within_getBitmap.bind fun map => within_getDiskSize.bind fun size => (Within.lift _).bind fun clear => ?_
      dsimp only
      split
      · exact within_err _
      · refine (h.set _).bind fun _ => (h.set _).bind fun _ => h.bitmapWrite.bind fun _ => within_ask.bind fun env =>
          (h.write _ _).bind fun inodeDone => ?_
        split
        · refine (h.write _ _).bind fun blockDone => ?_
          split
          · exact h.addEntry _ _ _ _
          · exact h.undoMkdir _ _
        · exact h.undoMkdir _ _

theorem removeEntry (parent : Inode) (name : CStr) : Within Rel (removeEntry parent name) := by
  refine (within_searchDir h.read _ _).bind fun found => ?_
  cases found with
  | none => exact .pure ()
  | some hit => exact h.blockWrite _ _

theorem fsUnlink (path : CStr) : Within Rel (fsUnlink path) := by
  refine (within_translate h.read path).bind ?_
  rintro ⟨inum, inode⟩
  dsimp only
  split
  · exact within_err _
  · exact (within_parentDir h.read path).bind fun target => (h.removeEntry _ _).bind fun _ =>
      (within_freeLoop h.clear _ _ _).bind fun _ => (h.clear _).bind fun _ => h.bitmapWrite.bind fun _ => .pure 0

theorem fsRmdir (path : CStr) : Within Rel (fsRmdir path) := by
  have hcheck : Within Rel (rmdirCheck path) := by
    refine (within_translate h.read path).bind ?_
    rintro ⟨inum, inode⟩
    dsimp only
    split
    · exact within_err _
    · refine (h.read _).bind fun block => ?_
      split
      · exact within_err _
      · exact .pure _
  have hentry : Within Rel (rmdirEntry path) :=
    hcheck.bind fun found => (within_parentDir h.read path).bind fun target => (h.removeEntry _ _).bind fun _ => .pure _
  exact hentry.bind fun found => (h.clear _).bind fun _ => (h.clear _).bind fun _ => h.bitmapWrite.bind fun _ => .pure 0

theorem renameLoop (src dst : CStr) (inode : Inode) (left index : Nat) (dstEntry : Bool) :
    Within Rel (renameLoop src dst inode left index dstEntry) := by
  induction left generalizing index dstEntry with
  | zero => exact within_err _
  | succ left ih =>
      rw [Fs5600.renameLoop]
      split
      · refine (h.read _).bind fun block => (Within.lift _).bind fun found => ?_
        split
        · exact within_err _
        · exact (h.blockWrite _ _).bind fun _ => .pure 0
        · exact ih _ _
      · exact within_fault

theorem fsRename (srcPath dstPath : CStr) : Within Rel (fsRename srcPath dstPath) := by
  have hwalk := fun path => within_mapStop toENOENT (within_translate h.read path)
  refine (hwalk srcPath).bind fun _ => (within_lastComponent _).bind fun srcName =>
    (within_lastComponent _).bind fun dstName => (within_parentPath _).bind fun parentSrc =>
      (within_parentPath _).bind fun parentDst => (hwalk parentSrc).bind fun foundSrc =>
        (hwalk parentDst).bind fun foundDst => ?_
  dsimp only
  split
  · exact within_err _
  · split
    · exact within_err _
    · exact h.renameLoop _ _ _ _ _ _

theorem fsTruncate (path : CStr) (len : Int) : Within Rel (fsTruncate path len) := by
  rw [Fs5600.fsTruncate]
  split
  · exact within_err _
  · refine (within_translate h.read path).bind ?_
    rintro ⟨inum, inode⟩
    dsimp only
    split
    · exact within_err _
    · exact (within_freeLoop h.clear _ _ _).bind fun _ => within_ask.bind fun env => (h.blockWrite _ _).bind fun _ =>
        h.bitmapWrite.bind fun _ => .pure 0

theorem allocLoop (currentBlocks left i : Nat) (inode : Inode) :
    Within Rel (allocLoop currentBlocks left i inode) := by
  induction left generalizing i inode with
  | zero => exact .pure _
  | succ left ih =>
      refine within_getBitmap.bind fun map => within_getDiskSize.bind fun size => (Within.lift _).bind fun clear => ?_
      cases clear with
      | none => exact within_err _
      | some newBlock => exact (h.set newBlock).bind fun _ => (Within.lift _).bind fun inode => ih _ inode

theorem writeLoop (inode : Inode) (buf : List UInt8) (offset turns bytesWritten : Nat) :
    Within Rel (writeLoop inode buf offset turns bytesWritten) := by
  induction turns generalizing bytesWritten with
  | zero => exact .pure _
  | succ turns ih =>
      rw [Fs5600.writeLoop]
      split
      · refine (Within.lift _).bind fun ptr => ?_
        dsimp only
        split
        · exact (h.read ptr).bind fun block => (h.blockWrite _ _).bind fun _ => ih _
        · exact (Within.pure _).bind fun block => (h.blockWrite _ _).bind fun _ => ih _
      · exact .pure _

theorem fsWrite (path : CStr) (buf : List UInt8) (offset : Nat) : Within Rel (fsWrite path buf offset) := by
  refine (within_translate h.read path).bind ?_
  rintro ⟨inum, inode⟩
  dsimp only
  split
  · exact within_err _
  · split
    · exact within_err _
    · refine (h.allocLoop _ _ _ _).bind fun inode => (h.writeLoop _ _ _ _ _).bind fun bytesWritten =>
        within_ask.bind fun env => (h.blockWrite _ _).bind fun _ => ?_
      split
      · exact h.bitmapWrite.bind fun _ => .pure _
      · exact .pure _

/-- Every request keeps it. -/
theorem run (op : Op) : Within Rel op.call := by
  cases op with
  | getattr path => exact (within_fsGetattr h.read path).bind fun _ => .pure 0
  | readdir path => exact (within_fsReaddir h.read path).bind fun _ => .pure 0
  | rename srcPath dstPath => exact h.fsRename srcPath dstPath
  | chmod path mode =>
      exact (within_translate h.read path).bind fun found => within_ask.bind fun env =>
        (h.blockWrite _ _).bind fun _ => .pure 0
  | read path len offset => exact (within_fsRead h.read path len offset).bind fun _ => .pure _
  | statfs => exact within_fsStatfs.bind fun _ => .pure 0
  | create path mode => exact h.fsCreate path mode
  | mkdir path mode => exact h.fsMkdir path mode
  | unlink path => exact h.fsUnlink path
  | rmdir path => exact h.fsRmdir path
  | utime path modtime =>
      exact (within_translate h.read path).bind fun found => (h.blockWrite _ _).bind fun _ => .pure 0
  | truncate path len => exact h.fsTruncate path len
  | write path buf offset => exact h.fsWrite path buf offset

end Frame

end Fs5600
