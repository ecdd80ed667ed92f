import Fs5600.Resolve

/-! What the reading requests deliver where no block access fails, as functions of the disk: the attributes
of an inode, the bytes of a file and the entries of a directory. All of them depend on the blocks of the
object only, the entries also on the inodes they lead to. -/

namespace Fs5600

open Ownership Command

section Values

variable {env : Env} {fs : Fs} {α : Type} {call : Call α} {value : Except Stop α} {plan : List Event}

/-- A call ends with the value, in the state that the plan leads to. -/
theorem run_of_does (h : Does env fs call value plan) (hquiet : env.Quiet) :
    (call env (.start fs)).1 = value ∧ (call env (.start fs)).2.fs = fs.replay plan := by
  obtain ⟨hemits, hvalue⟩ := h.complete (fun reason => hquiet.not_breaksOff reason) (m := .start fs) rfl
  exact ⟨hvalue, hemits.view⟩

/-- An attempt delivers the end of a command that cannot break off. -/
theorem does_attempt (h : Does env fs call value plan) (hquiet : env.Quiet) :
    Does env fs (attempt call) (.ok value) plan := by
  intro m hm
  obtain ⟨events, hemits, ⟨hvalue, rfl⟩ | ⟨reason, hbreaks, -⟩⟩ := h m hm
  · exact ⟨events, hemits, Or.inl ⟨congrArg Except.ok hvalue, rfl⟩⟩
  · exact absurd hbreaks (hquiet.not_breaksOff reason)

theorem translate_value (hquiet : env.Quiet) (path : CStr) :
    (translate path env (.start fs)).1 = translateIn env.limits fs.disk path :=
  (run_of_does (reads_translate path) hquiet).1

/-- A path that leads somewhere is looked up where no block access fails. -/
theorem translate_of_descend (hquiet : env.Quiet) {path : CStr} (hpath : Plain path) (hlimits : Roomy env.limits)
    {inum : Nat} (h : descend fs.disk 2 (pathparse path) = .ok inum) :
    (translate path env (.start fs)).1 = .ok (inum, inodeAt fs.disk inum) :=
  (translate_value hquiet path).trans (translateIn_of_descend hpath.names (hpath.stack hlimits) h)

end Values

/-! ### Attributes -/

theorem fsGetattr_value {env : Env} {fs : Fs} (hquiet : env.Quiet) (path : CStr) :
    (fsGetattr path env (.start fs)).1 =
      (translateIn env.limits fs.disk path).map fun found => setstat found.2 := by
  have hread : Reads env fs (fsGetattr path)
      (translateIn env.limits fs.disk path >>= fun found => .ok (setstat found.2)) :=
    reads_bind (reads_translate path) fun found _ => Follows.pure _
  rw [(run_of_does hread hquiet).1]
  rcases translateIn env.limits fs.disk path with reason | found <;> rfl

/-! ### Bytes of a file -/

def readLoopIn (inode : Inode) (disk : Nat → Block) (offset len : Nat) : Nat → Nat → Except Stop (List UInt8)
  | 0, _ => .ok []
  | turns + 1, bytesRead =>
      if bytesRead < len then do
        let ptr ← inode.ptr ((offset + bytesRead) / fsBlockSize)
        let blockOffset := (offset + bytesRead) % fsBlockSize
        let copyLen := min (fsBlockSize - blockOffset) (len - bytesRead)
        let rest ← readLoopIn inode disk offset len turns (bytesRead + copyLen)
        .ok ((disk ptr).slice blockOffset copyLen ++ rest)
      else
        .ok []

def readIn (inode : Inode) (disk : Nat → Block) (len offset : Nat) : Except Stop (List UInt8) :=
  if !S_ISREG inode.mode then
    .error (.errno .EISDIR)
  else if inode.size.toInt ≤ offset then
    .ok []
  else
    let size := inode.size.toInt.toNat
    let len := if size < (offset + len) % 2 ^ 64 then size - offset else len
    readLoopIn inode disk offset len len 0

section Read

variable {env : Env} {fs : Fs} {inode : Inode} {disk disk' : Nat → Block}

theorem reads_readLoop (offset len turns bytesRead : Nat) :
    Reads env fs (readLoop inode offset len turns bytesRead) (readLoopIn inode fs.disk offset len turns bytesRead) := by
  induction turns generalizing bytesRead with
  | zero => exact Follows.pure _
  | succ turns ih =>
      rw [readLoop, readLoopIn]
      split
      · refine reads_bind (Follows.lift _) fun ptr _ => does_read_bind (reads_blockRead ptr) ?_
        exact reads_bind (ih _) fun rest _ => Follows.pure _
      · exact Follows.pure _

theorem reads_fsRead (path : CStr) (len offset : Nat) :
    Reads env fs (fsRead path len offset)
      (translateIn env.limits fs.disk path >>= fun found => readIn found.2 fs.disk len offset) := by
  refine reads_bind (reads_translate path) fun found _ => ?_
  unfold readIn
  dsimp only
  split
  · exact Follows.stop _
  · split
    · exact Follows.pure _
    · exact reads_readLoop _ _ _ _

theorem readLoopIn_congr {offset len : Nat} (hlen : offset + len ≤ inode.size.toInt.toNat)
    (hblocks : ∀ i : Fin numPtrs, i.val < inode.numBlocks →
      disk' (inode.ptrs i).toNat = disk (inode.ptrs i).toNat) (turns bytesRead : Nat) :
    readLoopIn inode disk' offset len turns bytesRead = readLoopIn inode disk offset len turns bytesRead := by
  induction turns generalizing bytesRead with
  | zero => rfl
  | succ turns ih =>
      rw [readLoopIn, readLoopIn]
      split
      · rename_i hlt
        by_cases hindex : (offset + bytesRead) / fsBlockSize < numPtrs
        · have hcount : (offset + bytesRead) / fsBlockSize < inode.numBlocks := by
            unfold Inode.numBlocks
            simp only [fsBlockSize]
            omega
          rw [Inode.ptr, dif_pos hindex]
          simp only [bind, Except.bind]
          rw [hblocks ⟨_, hindex⟩ hcount, ih]
        · rw [Inode.ptr, dif_neg hindex]
          rfl
      · rfl

/-- A read depends on the inode and on its data blocks. The kernel passes no offset and length whose sum
overflows. -/
theorem readIn_congr {len offset : Nat} (hrange : offset + len < 2 ^ 64)
    (hblocks : ∀ i : Fin numPtrs, i.val < inode.numBlocks →
      disk' (inode.ptrs i).toNat = disk (inode.ptrs i).toNat) :
    readIn inode disk' len offset = readIn inode disk len offset := by
  rw [readIn, readIn, Nat.mod_eq_of_lt hrange]
  split
  · rfl
  · split
    · rfl
    · refine readLoopIn_congr ?_ hblocks _ _
      split <;> omega

end Read

/-- The requests that read an object deliver the same for a path. -/
structure SameFile (env : Env) (fs fs' : Fs) (path : CStr) : Prop where
  translate : (translate path env (.start fs')).1 = (translate path env (.start fs)).1
  getattr : (fsGetattr path env (.start fs')).1 = (fsGetattr path env (.start fs)).1
  read : ∀ len offset, offset + len < 2 ^ 64 →
    (fsRead path len offset env (.start fs')).1 = (fsRead path len offset env (.start fs)).1

/-- A path that still leads to the same inode, with the same data blocks. -/
theorem sameFile_of_translateIn {env : Env} {fs fs' : Fs} (hquiet : env.Quiet) {path : CStr} {inum : Nat}
    (h : translateIn env.limits fs.disk path = .ok (inum, inodeAt fs.disk inum))
    (h' : translateIn env.limits fs'.disk path = .ok (inum, inodeAt fs.disk inum))
    (hdata : S_ISREG (inodeAt fs.disk inum).mode = true → ∀ i : Fin numPtrs,
      i.val < (inodeAt fs.disk inum).numBlocks →
        fs'.disk ((inodeAt fs.disk inum).ptrs i).toNat = fs.disk ((inodeAt fs.disk inum).ptrs i).toNat) :
    SameFile env fs fs' path := by
  refine ⟨?_, ?_, fun len offset hrange => ?_⟩
  · rw [translate_value hquiet, translate_value hquiet, h, h']
  · rw [fsGetattr_value hquiet, fsGetattr_value hquiet, h, h']
  · rw [(run_of_does (reads_fsRead path len offset) hquiet).1, (run_of_does (reads_fsRead path len offset) hquiet).1,
      h, h']
    change readIn _ fs'.disk len offset = readIn _ fs.disk len offset
    cases hreg : S_ISREG (inodeAt fs.disk inum).mode with
    | true => exact readIn_congr hrange (hdata hreg)
    | false => simp only [readIn, hreg, Bool.not_false, if_true]

/-! ### Entries of a directory -/

/-- All slots that a directory can have, in the order of the loops. -/
def allSlots : List Slot := List.finRange numPtrs ×ˢ List.finRange direntsPerBlock

/-- What the filler gets of an entry. -/
def shown (disk : Nat → Block) (entry : List UInt8 × Nat) : List UInt8 × Stat :=
  (entry.1, setstat (inodeAt disk entry.2))

/-- The entries of a directory with the attributes of the objects they lead to. -/
def listing (disk : Nat → Block) (dir : Nat) : List (List UInt8 × Stat) :=
  allSlots.filterMap fun slot => ((tree disk).edge dir slot).map (shown disk)

section Readdir

variable {env : Env} {fs : Fs} {disk disk' : Nat → Block} {dir : Nat}

/-- The part of a listing that comes from one block. -/
def blockListing (disk : Nat → Block) (dir : Nat) (i : Fin numPtrs) : List (List UInt8 × Stat) :=
  (List.finRange direntsPerBlock).filterMap fun s => ((tree disk).edge dir (i, s)).map (shown disk)

/-- The part of a listing that comes from the blocks from one on. -/
def listingFrom (disk : Nat → Block) (dir index : Nat) : List (List UInt8 × Stat) :=
  ((List.finRange numPtrs).drop index).flatMap (blockListing disk dir)

theorem filterMap_product {α β γ : Type} (first : List α) (second : List β) (f : α × β → Option γ) :
    (first ×ˢ second).filterMap f = first.flatMap fun a => second.filterMap fun b => f (a, b) := by
  induction first with
  | nil => rfl
  | cons a rest ih =>
      rw [List.product_cons, List.filterMap_append, List.filterMap_map, List.flatMap_cons, ih]
      rfl

theorem listing_eq_listingFrom (disk : Nat → Block) (dir : Nat) : listing disk dir = listingFrom disk dir 0 := by
  rw [listing, allSlots, filterMap_product, listingFrom, List.drop_zero]
  rfl

theorem drop_finRange {n index : Nat} (h : index < n) :
    (List.finRange n).drop index = ⟨index, h⟩ :: (List.finRange n).drop (index + 1) := by
  rw [List.drop_eq_getElem_cons (by simpa using h)]
  simp

theorem le_of_mem_drop_finRange {n index : Nat} {i : Fin n} (h : i ∈ (List.finRange n).drop index) :
    index ≤ i.val := by
  obtain ⟨k, hk, rfl⟩ := List.mem_iff_getElem.mp h
  simp

theorem listingFrom_cons {index : Nat} (h : index < numPtrs) :
    listingFrom disk dir index = blockListing disk dir ⟨index, h⟩ ++ listingFrom disk dir (index + 1) := by
  rw [listingFrom, drop_finRange h, List.flatMap_cons]
  rfl

theorem listingFrom_end {index : Nat} (h : (inodeAt disk dir).dirBlocks ≤ index) :
    listingFrom disk dir index = [] := by
  refine List.flatMap_eq_nil_iff.mpr fun i hi => List.filterMap_eq_nil_iff.mpr fun s _ => ?_
  have hnot : ¬HasSlot disk dir (i, s) := fun hslot => by
    have hlt : i.val < (inodeAt disk dir).dirBlocks := hslot.2
    have := le_of_mem_drop_finRange hi
    omega
  have hnone : (tree disk).edge dir (i, s) = none := if_neg hnot
  rw [hnone]
  rfl

theorem does_fillLoop (hquiet : env.Quiet) {block : Block}
    (hends : ∀ s, (block.dirent s).valid = true → (block.dirent s).storedName.length < nameLen)
    (slots : List (Fin direntsPerBlock)) :
    Reads env fs (fillLoop block slots)
      (.ok (slots.filterMap fun s => (block.dirent s).edge.map (shown fs.disk))) := by
  induction slots with
  | nil => exact Follows.pure _
  | cons slot rest ih =>
      rw [fillLoop, List.filterMap_cons, Dirent.edge]
      split
      · rename_i hvalid
        have hname : (block.dirent slot).fillerName = .ok (block.dirent slot).storedName :=
          if_pos (nul_mem_name (hends slot hvalid))
        refine does_read_bind (does_attempt (reads_readInode _) hquiet) ?_
        dsimp only
        rw [hname]
        exact does_read_bind (Follows.lift _) (does_read_bind ih (Follows.pure _))
      · exact ih

theorem does_fillBlock (hquiet : env.Quiet) (h : WellNamed fs.disk) (hdir : (tree fs.disk).Reach dir)
    {i : Fin numPtrs} (hslot : ∀ s, HasSlot fs.disk dir (i, s)) :
    Reads env fs (fillLoop (fs.disk ((inodeAt fs.disk dir).ptrs i).toNat) (List.finRange direntsPerBlock))
      (.ok (blockListing fs.disk dir i)) := by
  have hentry : ∀ s, (fs.disk ((inodeAt fs.disk dir).ptrs i).toNat).dirent s = direntAt fs.disk dir (i, s) :=
    fun s => rfl
  have hedges : blockListing fs.disk dir i = (List.finRange direntsPerBlock).filterMap fun s =>
      ((fs.disk ((inodeAt fs.disk dir).ptrs i).toNat).dirent s).edge.map (shown fs.disk) :=
    List.filterMap_congr fun s _ => by rw [tree_edge_of_hasSlot (hslot s), hentry]
  rw [hedges]
  refine does_fillLoop hquiet (fun s hvalid => ?_) _
  rw [hentry] at hvalid ⊢
  exact h.terminated.length_lt hdir (hslot s) hvalid

theorem does_readdirLoop (hquiet : env.Quiet) (h : WellNamed fs.disk) (hdir : (tree fs.disk).Reach dir)
    (hmode : S_ISDIR (inodeAt fs.disk dir).mode = true) {left index : Nat}
    (hbound : index + left = (inodeAt fs.disk dir).dirBlocks) :
    Reads env fs (readdirLoop (inodeAt fs.disk dir) left index)
      (.ok (listingFrom fs.disk dir index)) := by
  have hroom := h.dirBlocks_le hdir
  induction left generalizing index with
  | zero =>
      rw [listingFrom_end (by omega)]
      exact Follows.pure _
  | succ left ih =>
      have hindex : index < numPtrs := by omega
      have hslot : ∀ s, HasSlot fs.disk dir (⟨index, hindex⟩, s) := fun s => ⟨hmode, show index < _ by omega⟩
      have hblock : (inodeAt fs.disk dir).ptr index = .ok ((inodeAt fs.disk dir).ptrs ⟨index, hindex⟩).toNat :=
        dif_pos hindex
      have hfill := does_fillBlock hquiet h hdir hslot
      rw [readdirLoop, hblock, listingFrom_cons hindex]
      exact does_read_bind (Follows.lift _) (does_read_bind (reads_blockRead _) (does_read_bind hfill
        (does_read_bind (ih (by omega)) (Follows.pure _))))

def readdirIn (limits : Limits) (disk : Nat → Block) (path : CStr) : Except Stop (List (List UInt8 × Stat)) := do
  let (dir, inode) ← translateIn limits disk path
  if !S_ISDIR inode.mode then .error (.errno .ENOTDIR) else .ok (listing disk dir)

theorem fsReaddir_value (hquiet : env.Quiet) (h : WellNamed fs.disk) (path : CStr) :
    (fsReaddir path env (.start fs)).1 = readdirIn env.limits fs.disk path := by
  have hread : Reads env fs (fsReaddir path) (readdirIn env.limits fs.disk path) := by
    apply reads_bind (reads_translate path)
    rintro ⟨dir, inode⟩ htranslate
    obtain ⟨hdir, rfl⟩ := reach_of_translateIn htranslate
    dsimp only
    split
    · exact Follows.stop _
    · rename_i hmode
      rw [listing_eq_listingFrom]
      exact does_readdirLoop hquiet h hdir (by simpa using hmode) (Nat.zero_add _)
  exact (run_of_does hread hquiet).1

/-- A listing depends on the entries and on the inodes they lead to. -/
theorem listing_congr (hedge : (tree disk').edge dir = (tree disk).edge dir)
    (hinodes : ∀ slot label inum, (tree disk).edge dir slot = some (label, inum) →
      inodeAt disk' inum = inodeAt disk inum) : listing disk' dir = listing disk dir := by
  refine List.filterMap_congr fun slot _ => ?_
  rw [hedge]
  rcases hentry : (tree disk).edge dir slot with _ | ⟨label, inum⟩
  · rfl
  · simp only [Option.map_some, shown, hinodes slot label inum hentry]

theorem mem_allSlots (slot : Slot) : slot ∈ allSlots :=
  List.mem_product.mpr ⟨List.mem_finRange _, List.mem_finRange _⟩

theorem nodup_allSlots : allSlots.Nodup := (List.nodup_finRange _).product (List.nodup_finRange _)

/-- A new entry in an unused slot is shown between those that were there. -/
theorem listing_insert {slot : Slot} {label : List UInt8} {inum : Nat}
    (hfree : (tree disk).edge dir slot = none) (hadded : (tree disk').edge dir slot = some (label, inum))
    (hedge : ∀ s, s ≠ slot → (tree disk').edge dir s = (tree disk).edge dir s)
    (hinodes : ∀ s l m, (tree disk).edge dir s = some (l, m) → inodeAt disk' m = inodeAt disk m) :
    ∃ before after, listing disk dir = before ++ after ∧
      listing disk' dir = before ++ (label, setstat (inodeAt disk' inum)) :: after := by
  obtain ⟨first, last, hsplit⟩ := List.append_of_mem (mem_allSlots slot)
  have hnodup := nodup_allSlots
  rw [hsplit, List.nodup_append] at hnodup
  obtain ⟨-, hlast, hfirst⟩ := hnodup
  have hsame : ∀ s, s ≠ slot → ((tree disk').edge dir s).map (shown disk') =
      ((tree disk).edge dir s).map (shown disk) := by
    intro s hs
    rw [hedge s hs]
    rcases hentry : (tree disk).edge dir s with _ | ⟨l, m⟩
    · rfl
    · simp only [Option.map_some, shown, hinodes s l m hentry]
  refine ⟨first.filterMap fun s => ((tree disk).edge dir s).map (shown disk),
    last.filterMap fun s => ((tree disk).edge dir s).map (shown disk), ?_, ?_⟩
  · rw [listing, hsplit, List.filterMap_append, List.filterMap_cons, hfree]
    rfl
  · rw [listing, hsplit, List.filterMap_append, List.filterMap_cons, hadded]
    refine congrArg₂ (· ++ ·) ?_ (congrArg (List.cons _) ?_)
    · exact List.filterMap_congr fun s hs => hsame s (hfirst s hs slot List.mem_cons_self)
    · exact List.filterMap_congr fun s hs => hsame s fun heq => (List.nodup_cons.mp hlast).1 (heq ▸ hs)

end Readdir

end Fs5600
