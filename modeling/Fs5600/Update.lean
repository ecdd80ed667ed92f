import Fs5600.Remove

/-! What `fs_chmod`, `fs_utime` and `fs_truncate` do in a sound file system. -/

namespace Fs5600

open Ownership Command

/-! ### `fs_chmod` and `fs_utime` -/

/-- How a call that rewrites one inode ends: early, or with the changed inode in its block. -/
inductive SetsInode (change : Inode → Inode) (limits : Limits) (fs : Fs) (path : CStr) :
    Except Stop Int → List Event → Prop
  | stops (reason : Stop) : SetsInode change limits fs path (.error reason) []
  | done {inum : Nat} (htranslate : translateIn limits fs.disk path = .ok (inum, inodeAt fs.disk inum)) :
      SetsInode change limits fs path (.ok 0) [.blockWrite inum (change (inodeAt fs.disk inum)).toBlock]

def Inode.chmod (mode : UInt32) (inode : Inode) : Inode :=
  { inode with mode := (inode.mode &&& S_IFMT) ||| (mode &&& 0o777) }

def Inode.utime (modtime : Int) (inode : Inode) : Inode := { inode with mtime := UInt32.ofInt modtime }

section Attributes

variable {env : Env} {fs : Fs}

/-- What `fs_chmod` does: the time it takes reaches the inode in memory only. -/
theorem acts_fsChmod (h : Sound fs) (path : CStr) (mode : UInt32) :
    Acts env fs (fsChmod path mode) (SetsInode (.chmod mode) env.limits fs path) := by
  refine .read (reads_translate path) (fun reason _ => .stops reason) ?_
  rintro ⟨inum, inode⟩ htranslate
  obtain ⟨hreach, rfl⟩ := reach_of_translateIn htranslate
  exact ⟨_, _, does_read_bind Follows.ask
    (does_bind_read (does_blockWrite (h.writable hreach.inUse) _) (Follows.pure 0)), .done htranslate⟩

theorem acts_fsUtime (h : Sound fs) (path : CStr) (modtime : Int) :
    Acts env fs (fsUtime path modtime) (SetsInode (.utime modtime) env.limits fs path) := by
  refine .read (reads_translate path) (fun reason _ => .stops reason) ?_
  rintro ⟨inum, inode⟩ htranslate
  obtain ⟨hreach, rfl⟩ := reach_of_translateIn htranslate
  exact ⟨_, _, does_bind_read (does_blockWrite (h.writable hreach.inUse) _) (Follows.pure 0), .done htranslate⟩

end Attributes

/-! ### `fs_truncate` -/

def Inode.truncate (time : UInt32) (inode : Inode) : Inode :=
  { inode with ptrs := fun _ => 0, size := 0, mtime := time }

/-- How `fs_truncate` ends: early, or with all data blocks marked free and the inode emptied. -/
inductive Truncate (env : Env) (fs : Fs) (path : CStr) (len : Int) : Except Stop Int → List Event → Prop
  | stops (reason : Stop) : Truncate env fs path len (.error reason) []
  | done {inum : Nat} (hlen : len = 0)
      (htranslate : translateIn env.limits fs.disk path = .ok (inum, inodeAt fs.disk inum))
      (hfile : S_ISDIR (inodeAt fs.disk inum).mode = false) :
      Truncate env fs path len (.ok 0)
        ((freed (inodeAt fs.disk inum) (inodeAt fs.disk inum).numBlocks 0).map .bitClear ++
          [.blockWrite inum ((inodeAt fs.disk inum).truncate env.time).toBlock,
            .blockWrite 1
              (clearAll fs.bitmap (freed (inodeAt fs.disk inum) (inodeAt fs.disk inum).numBlocks 0))])

section Truncate

variable {env : Env} {fs : Fs}

theorem does_freeLoop_of_sound {early : Stop → Prop} (h : Sound fs) (hfits : Fits fs.disk) {inum : Nat}
    (hreach : (tree fs.disk).Reach inum) (fs' : Fs) :
    Follows recorder early env fs' (freeLoop (inodeAt fs.disk inum) (inodeAt fs.disk inum).numBlocks 0) (.ok ())
      ((freed (inodeAt fs.disk inum) (inodeAt fs.disk inum).numBlocks 0).map .bitClear) :=
  does_freeLoop (Or.inr (by have := hfits inum hreach; omega)) fun _ _ hi => h.block_lt hfits hreach (by omega)

theorem acts_fsTruncate (h : Sound fs) (hfits : Fits fs.disk) (path : CStr) (len : Int) :
    Acts env fs (fsTruncate path len) (Truncate env fs path len) := by
  unfold fsTruncate
  split
  · exact .stop (.stops _)
  · rename_i hlen
    refine .read (reads_translate path) (fun reason _ => .stops reason) ?_
    rintro ⟨inum, inode⟩ htranslate
    obtain ⟨hreach, rfl⟩ := reach_of_translateIn htranslate
    dsimp only
    split
    · exact .stop (.stops _)
    · rename_i hmode
      have hwrite : ∀ fs' : Fs, Does env fs' (do
          bitmapWrite
          pure (0 : Int)) (.ok 0) [.blockWrite 1 fs'.bitmap] := fun fs' =>
        does_bind_read does_bitmapWrite (Follows.pure 0)
      refine ⟨_, _, does_bind (does_freeLoop_of_sound h hfits hreach fs) ?_,
        .done (not_ne_iff.mp hlen) htranslate (by simpa using hmode)⟩
      rw [replay_bitClears]
      exact does_read_bind Follows.ask (does_bind (does_blockWrite (h.writable hreach.inUse) _) (hwrite _))

end Truncate

end Fs5600
