import Fs5600.Base.Record
import Fs5600.OpsMeta

/-! What the calls read, as functions of the disk. The code of `Walk` reads block after block, and each
read may fail; the functions here deliver what that code delivers where none fails. -/

namespace Fs5600

open Command Search

variable {α β : Type}

/-- A machine shows its file system and the trace of events. -/
abbrev recorder : Recorder Machine Fs Event := ⟨Machine.fs, Machine.trace, Fs.apply⟩

/-- A call may break off early where a block access fails: it then returns an error code. -/
def Env.BreaksOff (env : Env) (reason : Stop) : Prop := reason ≠ .fault ∧ ¬env.Quiet

theorem Env.Quiet.not_breaksOff {env : Env} (h : env.Quiet) (reason : Stop) : ¬env.BreaksOff reason :=
  fun hbreaks => hbreaks.2 h

/-- The call does the events of the plan and ends with the value, or a failed block access ends it with
an error code in the middle of the plan. -/
abbrev Does (env : Env) (fs : Fs) (call : Call α) (value : Except Stop α) (plan : List Event) : Prop :=
  Follows recorder env.BreaksOff env fs call value plan

/-- The call changes nothing and delivers the value. -/
abbrev Reads (env : Env) (fs : Fs) (call : Call α) (value : Except Stop α) : Prop := Does env fs call value []

section Rules

variable {env : Env} {fs : Fs}

theorem reads_blockRead (lba : Nat) : Reads env fs (blockRead lba) (.ok (fs.disk lba)) := by
  rintro m rfl
  refine ⟨[], ⟨rfl, (List.append_nil _).symm⟩, ?_⟩
  by_cases hfail : env.readFails m.reads lba = true
  · refine Or.inr ⟨.errno Errno.EIO, ⟨by simp, fun hquiet => ?_⟩, by simp only [blockRead, hfail, if_true],
      List.prefix_rfl⟩
    rw [hquiet.1] at hfail
    cases hfail
  · exact Or.inl ⟨by simp only [blockRead, hfail, if_false, Bool.false_eq_true], rfl⟩

theorem reads_getBitmap : Reads env fs getBitmap (.ok fs.bitmap) := by
  rintro m rfl
  exact ⟨[], ⟨rfl, (List.append_nil _).symm⟩, Or.inl ⟨rfl, rfl⟩⟩

theorem reads_getDiskSize : Reads env fs getDiskSize (.ok fs.diskSize) := by
  rintro m rfl
  exact ⟨[], ⟨rfl, (List.append_nil _).symm⟩, Or.inl ⟨rfl, rfl⟩⟩

theorem reads_bind {call : Call α} {next : α → Call β} {value : Except Stop α} {value' : α → Except Stop β}
    (h : Reads env fs call value) (hnext : ∀ a, value = .ok a → Reads env fs (next a) (value' a)) :
    Reads env fs (call >>= next) (value >>= value') :=
  Follows.bind h hnext rfl

/-- After a read that delivers a value, the call goes on in the same state. -/
theorem does_read_bind {call : Call α} {next : α → Call β} {a : α} {value : Except Stop β} {plan : List Event}
    (h : Reads env fs call (.ok a)) (hnext : Does env fs (next a) value plan) :
    Does env fs (call >>= next) value plan :=
  Follows.bind_ok h hnext

theorem reads_mapStop {call : Call α} {value : Except Stop α} {f : Stop → Stop}
    (hf : ∀ reason, reason ≠ .fault → f reason ≠ .fault) (h : Reads env fs call value) :
    Reads env fs (mapStop f call) (value.mapError f) := by
  intro m hm
  obtain ⟨events, hemits, hpost⟩ := h m hm
  unfold mapStop
  rcases hrun : call env m with ⟨reason | a, m'⟩ <;> rw [hrun] at hemits hpost <;> refine ⟨events, hemits, ?_⟩
  · rcases hpost with ⟨rfl, rfl⟩ | ⟨reason', hbreaks, hresult, hpre⟩
    · exact Or.inl ⟨rfl, rfl⟩
    · obtain rfl := Except.error.inj hresult
      exact Or.inr ⟨f reason, ⟨hf _ hbreaks.1, hbreaks.2⟩, rfl, hpre⟩
  · rcases hpost with ⟨rfl, rfl⟩ | ⟨reason', -, hresult, -⟩
    · exact Or.inl ⟨rfl, rfl⟩
    · cases hresult

end Rules

/-! ### Searching a directory -/

/-- What `searchLoop` delivers. -/
def searchLoopIn (test : Dirent → Except Stop Bool) (inode : Inode) (disk : Nat → Block) :
    Nat → Nat → Except Stop (Option Hit)
  | 0, _ => .ok none
  | left + 1, index =>
      if h : index < numPtrs then do
        match ← searchSlots test (disk (inode.ptrs ⟨index, h⟩).toNat) with
        | some slot => .ok (some ⟨⟨index, h⟩, slot, disk (inode.ptrs ⟨index, h⟩).toNat⟩)
        | none => searchLoopIn test inode disk left (index + 1)
      else .error .fault

def searchDirIn (test : Dirent → Except Stop Bool) (inode : Inode) (disk : Nat → Block) :
    Except Stop (Option Hit) :=
  searchLoopIn test inode disk inode.dirBlocks 0

section Search

variable {env : Env} {fs : Fs} {test : Dirent → Except Stop Bool} {inode : Inode} {disk : Nat → Block}

theorem reads_searchLoop (left index : Nat) :
    Reads env fs (searchLoop test inode left index) (searchLoopIn test inode fs.disk left index) := by
  induction left generalizing index with
  | zero => exact Follows.pure none
  | succ left ih =>
      rw [searchLoop, searchLoopIn]
      split
      · refine does_read_bind (reads_blockRead _) (reads_bind (Follows.lift _) fun found _ => ?_)
        cases found with
        | none => exact ih (index + 1)
        | some slot => exact Follows.pure _
      · exact Follows.stop _

theorem reads_searchDir : Reads env fs (searchDir test inode) (searchDirIn test inode fs.disk) :=
  reads_searchLoop _ _

theorem searchSlots_eq_some {block : Block} {slot : Fin direntsPerBlock}
    (h : searchSlots test block = .ok (some slot)) : test (block.dirent slot) = .ok true := by
  obtain ⟨before, after, -, htest, -⟩ := findFirst_eq_some.mp h
  exact htest

theorem searchSlots_eq_none {block : Block} (h : searchSlots test block = .ok none)
    (slot : Fin direntsPerBlock) : test (block.dirent slot) = .ok false :=
  findFirst_eq_none.mp h slot (List.mem_finRange slot)

theorem searchLoopIn_eq_some {left index : Nat} {hit : Hit}
    (h : searchLoopIn test inode disk left index = .ok (some hit)) :
    index ≤ hit.index.val ∧ hit.index.val < index + left ∧
      hit.block = disk (inode.ptrs hit.index).toNat ∧ test hit.entry = .ok true := by
  induction left generalizing index with
  | zero => cases h
  | succ left ih =>
      unfold searchLoopIn at h
      split at h
      · rename_i hindex
        rcases hslots : searchSlots test (disk (inode.ptrs ⟨index, hindex⟩).toNat) with reason | (_ | slot)
        · rw [hslots] at h
          cases h
        · rw [hslots] at h
          obtain ⟨hle, hlt, hrest⟩ := ih h
          exact ⟨by omega, by omega, hrest⟩
        · rw [hslots] at h
          obtain rfl := Option.some.inj (Except.ok.inj h)
          exact ⟨Nat.le_refl _, by simp, rfl, searchSlots_eq_some hslots⟩
      · cases h

theorem searchLoopIn_eq_none {left index : Nat} (h : searchLoopIn test inode disk left index = .ok none) :
    (∀ i : Fin numPtrs, index ≤ i.val → i.val < index + left → ∀ slot,
      test ((disk (inode.ptrs i).toNat).dirent slot) = .ok false) ∧ (left = 0 ∨ index + left ≤ numPtrs) := by
  induction left generalizing index with
  | zero => exact ⟨fun i hle hlt => by omega, Or.inl rfl⟩
  | succ left ih =>
      unfold searchLoopIn at h
      split at h
      · rename_i hindex
        rcases hslots : searchSlots test (disk (inode.ptrs ⟨index, hindex⟩).toNat) with reason | (_ | slot)
        · rw [hslots] at h
          cases h
        · rw [hslots] at h
          obtain ⟨hrest, hbound⟩ := ih h
          refine ⟨fun i hle hlt slot => ?_, Or.inr (by omega)⟩
          rcases Nat.eq_or_lt_of_le hle with heq | hlt'
          · obtain rfl : i = ⟨index, hindex⟩ := Fin.ext heq.symm
            exact searchSlots_eq_none hslots slot
          · exact hrest i hlt' (by omega) slot
        · rw [hslots] at h
          cases h
      · cases h

/-- A search does not fault where no test does and the directory has no more blocks than pointers. -/
theorem searchLoopIn_ok {left index : Nat} (hbound : index + left ≤ numPtrs)
    (htest : ∀ i : Fin numPtrs, index ≤ i.val → i.val < index + left → ∀ slot, ∃ passed,
      test ((disk (inode.ptrs i).toNat).dirent slot) = .ok passed) :
    ∃ found, searchLoopIn test inode disk left index = .ok found := by
  induction left generalizing index with
  | zero => exact ⟨none, rfl⟩
  | succ left ih =>
      have hindex : index < numPtrs := by omega
      rw [searchLoopIn, dif_pos hindex]
      obtain ⟨found, hfound⟩ : ∃ found, searchSlots test (disk (inode.ptrs ⟨index, hindex⟩).toNat) = .ok found :=
        findFirst_ok fun slot _ => htest ⟨index, hindex⟩ (Nat.le_refl _) (by simp) slot
      rw [hfound]
      cases found with
      | some slot => exact ⟨_, rfl⟩
      | none => exact ih (by omega) fun i hle hlt => htest i (by omega) (by omega)

theorem searchDirIn_eq_some {hit : Hit} (h : searchDirIn test inode disk = .ok (some hit)) :
    hit.index.val < inode.dirBlocks ∧ hit.block = disk (inode.ptrs hit.index).toNat ∧
      test hit.entry = .ok true := by
  obtain ⟨-, hlt, hrest⟩ := searchLoopIn_eq_some h
  exact ⟨by omega, hrest⟩

theorem searchDirIn_eq_none (h : searchDirIn test inode disk = .ok none) {i : Fin numPtrs}
    (hi : i.val < inode.dirBlocks) (slot : Fin direntsPerBlock) :
    test ((disk (inode.ptrs i).toNat).dirent slot) = .ok false :=
  (searchLoopIn_eq_none h).1 i (Nat.zero_le _) (by omega) slot

/-- A search reads the blocks of the directory only. -/
theorem searchLoopIn_congr {disk' : Nat → Block} {left index : Nat}
    (h : ∀ i : Fin numPtrs, index ≤ i.val → i.val < index + left →
      disk' (inode.ptrs i).toNat = disk (inode.ptrs i).toNat) :
    searchLoopIn test inode disk' left index = searchLoopIn test inode disk left index := by
  induction left generalizing index with
  | zero => rfl
  | succ left ih =>
      rw [searchLoopIn, searchLoopIn]
      split
      · rename_i hindex
        rw [h ⟨index, hindex⟩ (Nat.le_refl _) (by simp), ih fun i hle hlt => h i (by omega) (by omega)]
      · rfl

theorem searchDirIn_congr {disk' : Nat → Block}
    (h : ∀ i : Fin numPtrs, i.val < inode.dirBlocks → disk' (inode.ptrs i).toNat = disk (inode.ptrs i).toNat) :
    searchDirIn test inode disk' = searchDirIn test inode disk :=
  searchLoopIn_congr fun i _ hlt => h i (by omega)

end Search

/-! ### Walking a path -/

def inodeAt (disk : Nat → Block) (inum : Nat) : Inode := Inode.ofBlock (disk inum)

def walkStepIn (limits : Limits) (disk : Nat → Block) (st : WalkState) (component : CStr) :
    Except Stop WalkState :=
  if component = dot then
    .ok st
  else if component = dotdot then
    if 0 < st.stackPos then
      .ok { st with stackPos := st.stackPos - 1, current := st.parentStack (st.stackPos - 1) }
    else
      .ok st
  else if !S_ISDIR (inodeAt disk st.current).mode then
    .error (.errno .ENOTDIR)
  else do
    match ← searchDirIn (hasName component) (inodeAt disk st.current) disk with
    | none => .error (.errno .ENOENT)
    | some hit =>
        if st.stackPos + 1 < limits.parentStack then
          .ok
            { parentStack := Function.update st.parentStack (st.stackPos + 1) st.current
              stackPos := st.stackPos + 1
              current := hit.entry.inode.toNat }
        else
          .error .fault

def walkLoopIn (limits : Limits) (disk : Nat → Block) : List CStr → WalkState → Except Stop WalkState
  | [], st => .ok st
  | component :: rest, st => do
      let st ← walkStepIn limits disk st component
      walkLoopIn limits disk rest st

def translateIn (limits : Limits) (disk : Nat → Block) (path : CStr) : Except Stop (Nat × Inode) := do
  let st ← walkLoopIn limits disk (pathparse path) .start
  .ok (st.current, inodeAt disk st.current)

def parentPathIn (limits : Limits) (resolved : List CStr) : Except Stop CStr :=
  if (joinPath resolved.dropLast).strlen + 1 ≤ limits.parentPath then .ok (joinPath resolved.dropLast)
  else .error .fault

def lastComponentIn (resolved : List CStr) : Except Stop CStr :=
  match resolved.getLast? with
  | some name => .ok name
  | none => .error .fault

def parentDirIn (limits : Limits) (disk : Nat → Block) (path : CStr) : Except Stop (CStr × Inode) := do
  let resolved := resolvePath (pathparse path)
  let name ← lastComponentIn resolved
  let parent ← parentPathIn limits resolved
  let (_, inode) ← translateIn limits disk parent
  if !S_ISDIR inode.mode then .error (.errno .ENOTDIR) else .ok (name, inode)

section Walk

variable {env : Env} {fs : Fs}

theorem reads_readInode (inum : Nat) : Reads env fs (readInode inum) (.ok (inodeAt fs.disk inum)) :=
  does_read_bind (reads_blockRead inum) (Follows.pure _)

theorem reads_walkStep (st : WalkState) (component : CStr) :
    Reads env fs (walkStep st component) (walkStepIn env.limits fs.disk st component) := by
  rw [walkStep, walkStepIn]
  split
  · exact Follows.pure _
  · split
    · split <;> exact Follows.pure _
    · apply does_read_bind (reads_readInode _)
      split
      · exact Follows.stop _
      · refine reads_bind reads_searchDir fun found _ => ?_
        cases found with
        | none => exact Follows.stop _
        | some hit =>
            apply does_read_bind Follows.ask
            split
            · exact Follows.pure _
            · exact Follows.stop _

theorem reads_walkLoop (components : List CStr) (st : WalkState) :
    Reads env fs (walkLoop components st) (walkLoopIn env.limits fs.disk components st) := by
  induction components generalizing st with
  | nil => exact Follows.pure _
  | cons component rest ih => exact reads_bind (reads_walkStep st component) fun st' _ => ih st'

theorem reads_translate (path : CStr) : Reads env fs (translate path) (translateIn env.limits fs.disk path) := by
  rw [translate, translateIn]
  split
  · rename_i hnil
    rw [hnil]
    exact does_read_bind (reads_readInode 2) (Follows.pure _)
  · exact reads_bind (reads_walkLoop _ _) fun st _ => does_read_bind (reads_readInode _) (Follows.pure _)

theorem reads_lastComponent (resolved : List CStr) :
    Reads env fs (lastComponent resolved) (lastComponentIn resolved) := by
  rw [lastComponent, lastComponentIn]
  cases resolved.getLast? with
  | none => exact Follows.stop _
  | some name => exact Follows.pure name

theorem reads_parentPath (resolved : List CStr) :
    Reads env fs (parentPath resolved) (parentPathIn env.limits resolved) := by
  apply does_read_bind Follows.ask
  unfold parentPathIn
  split
  · exact Follows.pure _
  · exact Follows.stop _

theorem reads_parentDir (path : CStr) :
    Reads env fs (parentDir path) (parentDirIn env.limits fs.disk path) := by
  refine reads_bind (reads_lastComponent _) fun name _ => reads_bind (reads_parentPath _) fun parent _ =>
    reads_bind (reads_translate parent) fun found _ => ?_
  dsimp only
  split
  · exact Follows.stop _
  · exact Follows.pure _

end Walk

end Fs5600
