import Fs5600.Phases

/-! What `fs_create` and `fs_mkdir` do in a sound file system. Where one of their block writes fails they
undo what they did to the bitmap; so with failing block accesses they may leave other traces than the
first part of what they would have done. -/

namespace Fs5600

open Ownership Command

variable {α β : Type}

/-- The call does the plan and ends with the value, or a failed block access ends it in the middle of the
plan or with a trace that `undo` allows. -/
def Performs (undo : List Event → Prop) (env : Env) (fs : Fs) (call : Call α) (value : Except Stop α)
    (plan : List Event) : Prop :=
  Ensures recorder env fs call fun result events =>
    (result = value ∧ events = plan) ∨
      ∃ reason, env.BreaksOff reason ∧ result = .error reason ∧ (events <+: plan ∨ undo events)

section Rules

variable {undo : List Event → Prop} {env : Env} {fs : Fs} {plan plan' : List Event}

theorem Performs.of_does {call : Call α} {value : Except Stop α} (h : Does env fs call value plan) :
    Performs undo env fs call value plan :=
  h.mono fun _ _ hpost => hpost.imp_right fun ⟨reason, hbreaks, hresult, hpre⟩ =>
    ⟨reason, hbreaks, hresult, Or.inl hpre⟩

/-- The rule for a sequence whose first part cannot be undone. -/
theorem Performs.bind {call : Call α} {next : α → Call β} {a : α} {value : Except Stop β}
    (h : Does env fs call (.ok a) plan)
    (hnext : Performs (fun events => undo (plan ++ events)) env (fs.replay plan) (next a) value plan') :
    Performs undo env fs (call >>= next) value (plan ++ plan') := by
  refine Ensures.bind h ?_ ?_
  · rintro reason events (⟨hresult, -⟩ | ⟨reason', hbreaks, hresult, hpre⟩)
    · cases hresult
    · obtain rfl := Except.error.inj hresult
      exact Or.inr ⟨reason, hbreaks, rfl, Or.inl (hpre.trans (List.prefix_append _ _))⟩
  · rintro a' events (⟨hresult, rfl⟩ | ⟨reason, -, hresult, -⟩)
    · obtain rfl := Except.ok.inj hresult
      apply hnext.mono
      rintro result events' (⟨rfl, rfl⟩ | ⟨reason, hbreaks, rfl, hpre | hundo⟩)
      · exact Or.inl ⟨rfl, rfl⟩
      · exact Or.inr ⟨reason, hbreaks, rfl, Or.inl ((List.prefix_append_right_inj _).mpr hpre)⟩
      · exact Or.inr ⟨reason, hbreaks, rfl, Or.inr hundo⟩
    · cases hresult

/-- The call performs some plan and ends with some value that satisfy the postcondition. -/
def Attempts (undo : List Event → Prop) (env : Env) (fs : Fs) (call : Call α)
    (post : Except Stop α → List Event → Prop) : Prop :=
  ∃ value plan, Performs undo env fs call value plan ∧ post value plan

theorem Attempts.of_acts {call : Call α} {post : Except Stop α → List Event → Prop}
    (h : Acts env fs call post) : Attempts undo env fs call post := by
  obtain ⟨value, plan, hdoes, hpost⟩ := h
  exact ⟨value, plan, .of_does hdoes, hpost⟩

/-- The rule for a first part that only reads. -/
theorem Attempts.read {call : Call α} {next : α → Call β} {value : Except Stop α}
    {post : Except Stop β → List Event → Prop} (h : Reads env fs call value)
    (hstop : ∀ reason, value = .error reason → post (.error reason) [])
    (hnext : ∀ a, value = .ok a → Attempts undo env fs (next a) post) :
    Attempts undo env fs (call >>= next) post := by
  cases value with
  | error reason => exact ⟨_, [], .of_does (Follows.bind_error h), hstop reason rfl⟩
  | ok a =>
      obtain ⟨value, plan, hperforms, hpost⟩ := hnext a rfl
      exact ⟨value, plan, .bind h hperforms, hpost⟩

/-- The rule for a write that is checked: on failure the call undoes what it did. -/
theorem Performs.tryBlockWrite {lba : Nat} {block : Block} {next undoing : Call β} {value : Except Stop β}
    (hlba : Writable lba)
    (hnext : Performs (fun events => undo (.blockWrite lba block :: events)) env
      (fs.apply (.blockWrite lba block)) next value plan)
    (hundoing : ¬env.Quiet → Ensures recorder env fs undoing fun result events =>
      (∃ reason, env.BreaksOff reason ∧ result = .error reason) ∧ undo events) :
    Performs undo env fs (do if ← tryBlockWrite lba block then next else undoing) value
      (.blockWrite lba block :: plan) := by
  refine Ensures.bind (ensures_tryBlockWrite hlba block) ?_ ?_
  · rintro reason events (⟨hresult, -⟩ | ⟨hresult, -⟩) <;> cases hresult
  · rintro written events (⟨hresult, rfl⟩ | ⟨hresult, rfl, hquiet⟩)
    · obtain rfl := Except.ok.inj hresult
      apply hnext.mono
      rintro result events' (⟨rfl, rfl⟩ | ⟨reason, hbreaks, rfl, hpre | hundo⟩)
      · exact Or.inl ⟨rfl, rfl⟩
      · exact Or.inr ⟨reason, hbreaks, rfl, Or.inl (List.cons_prefix_cons.mpr ⟨rfl, hpre⟩)⟩
      · exact Or.inr ⟨reason, hbreaks, rfl, Or.inr hundo⟩
    · obtain rfl := Except.ok.inj hresult
      refine (hundoing hquiet).mono ?_
      rintro result events' ⟨⟨reason, hbreaks, rfl⟩, hundo⟩
      exact Or.inr ⟨reason, hbreaks, rfl, Or.inr hundo⟩

/-- Clearing bits in memory and writing the bitmap, whatever comes of that write, before `-EIO`. -/
theorem ensures_undo {clear : Call Unit} {bits : List Nat}
    (hclear : Does env fs clear (.ok ()) (bits.map .bitClear)) (hquiet : ¬env.Quiet) :
    Ensures recorder env fs (do
      clear
      let _ ← Fs5600.tryBlockWrite 1 (← getBitmap)
      err Errno.EIO : Call Int) fun result events =>
        (∃ reason, env.BreaksOff reason ∧ result = .error reason) ∧
          ∀ event ∈ events, event ∈ bits.map .bitClear ∨ ∃ block, event = .blockWrite 1 block := by
  have hwrite : ∀ fs' : Fs, Ensures recorder env fs' (do
      let _ ← Fs5600.tryBlockWrite 1 (← getBitmap)
      err Errno.EIO : Call Int) fun result events =>
        (∃ reason, env.BreaksOff reason ∧ result = .error reason) ∧
          ∀ event ∈ events, ∃ block, event = .blockWrite 1 block := by
    intro fs'
    refine Ensures.bind reads_getBitmap ?_ ?_
    · rintro reason events (⟨hresult, -⟩ | ⟨reason', hbreaks, hresult, hpre⟩)
      · cases hresult
      · obtain rfl := Except.error.inj hresult
        exact ⟨⟨reason, hbreaks, rfl⟩, by rw [List.prefix_nil.mp hpre]; simp⟩
    · rintro map events (⟨-, rfl⟩ | ⟨reason, -, hresult, -⟩)
      · refine Ensures.bind (ensures_tryBlockWrite writable_bitmap map) ?_ ?_
        · rintro reason events (⟨hresult, -⟩ | ⟨hresult, -⟩) <;> cases hresult
        · have hstop : ∀ events : List Event, (∀ event ∈ events, ∃ block, event = .blockWrite 1 block) →
              Ensures recorder env (Replay.replay Fs.apply (Replay.replay Fs.apply fs' []) events)
                (err Errno.EIO : Call Int) fun result events' =>
                  (∃ reason, env.BreaksOff reason ∧ result = .error reason) ∧
                    ∀ event ∈ [] ++ (events ++ events'), ∃ block, event = .blockWrite 1 block := fun events he =>
            Ensures.stop ⟨⟨_, ⟨by simp, hquiet⟩, rfl⟩, by simpa using he⟩
          rintro written events (⟨-, rfl⟩ | ⟨-, rfl, -⟩)
          · exact hstop _ (by simp)
          · exact hstop _ (by simp)
      · cases hresult
  refine Ensures.bind hclear ?_ ?_
  · rintro reason events (⟨hresult, -⟩ | ⟨reason', hbreaks, hresult, hpre⟩)
    · cases hresult
    · obtain rfl := Except.error.inj hresult
      exact ⟨⟨reason, hbreaks, rfl⟩, fun event hevent => Or.inl (hpre.subset hevent)⟩
  · rintro _ events (⟨-, rfl⟩ | ⟨reason, -, hresult, -⟩)
    · refine (hwrite _).mono fun result events hpost => ⟨hpost.1, fun event hevent => ?_⟩
      exact (List.mem_append.mp hevent).imp_right (hpost.2 event)
    · cases hresult

end Rules

/-! ### Stored names -/

/-- A name field that starts with some bytes and a NUL behind them stores these bytes. -/
theorem storedName_eq {entry : Dirent} {bytes : List UInt8} (hlength : bytes.length < nameLen)
    (hfree : (0 : UInt8) ∉ bytes) (hfield : ∀ i, ∀ hi : i < bytes.length, entry.name ⟨i, hi.trans hlength⟩ = bytes[i])
    (hnul : entry.name ⟨bytes.length, hlength⟩ = 0) : entry.storedName = bytes := by
  have hlen : (List.ofFn entry.name).length = nameLen := List.length_ofFn
  have htake : (List.ofFn entry.name).take bytes.length = bytes := by
    apply List.ext_getElem
    · rw [List.length_take, hlen]
      omega
    · intro i hi hi'
      rw [List.getElem_take, List.getElem_ofFn, hfield i hi']
  have hall : ∀ b ∈ bytes, decide (b ≠ 0) = true := fun b hb => decide_eq_true fun heq => hfree (heq ▸ hb)
  unfold Dirent.storedName
  rw [← List.take_append_drop bytes.length (List.ofFn _), htake, List.takeWhile_append_of_pos hall,
    List.drop_eq_getElem_cons (by rw [hlen]; exact hlength), List.getElem_ofFn, hnul,
    List.takeWhile_cons_of_neg (by simp), List.append_nil]

/-- The stored name of a filled entry is the name cut to 26 bytes. -/
theorem storedName_copyName (valid : Bool) (inode : BitVec 31) (field : Fin nameLen → UInt8) (name : CStr) :
    (Dirent.mk valid inode (copyName field name)).storedName = name.bytes.take 26 := by
  have hfield : ∀ i : Fin nameLen, i.val < 26 → copyName field name i = name.bytes.getD i 0 := by
    intro i hi
    have hne : i ≠ ⟨maxNameLen - 1, by decide⟩ := fun heq => by
      have hval := congrArg Fin.val heq
      simp only [maxNameLen] at hval
      omega
    rw [copyName, Function.update_of_ne hne, strncpy, if_pos (by simp only [maxNameLen]; omega)]
  have hlength : (name.bytes.take 26).length < nameLen := by
    rw [List.length_take]
    simp only [nameLen]
    omega
  apply storedName_eq hlength (fun hmem => name.nulFree (List.mem_of_mem_take hmem))
  · intro i hi
    rw [List.length_take] at hi
    have hlt : i < name.bytes.length := by omega
    rw [List.getElem_take]
    calc _ = name.bytes.getD i 0 := hfield ⟨i, _⟩ (show i < 26 by omega)
      _ = name.bytes[i] := List.getD_eq_getElem _ _ hlt
  · by_cases hlong : 26 ≤ name.bytes.length
    · have hlast : (⟨(name.bytes.take 26).length, hlength⟩ : Fin nameLen) = ⟨maxNameLen - 1, by decide⟩ :=
        Fin.ext (List.length_take.trans (Nat.min_eq_left hlong))
      dsimp only
      rw [hlast]
      exact Function.update_self _ _ _
    · have htake : (name.bytes.take 26).length = name.bytes.length := by
        rw [List.length_take, Nat.min_eq_right (by omega)]
      calc _ = name.bytes.getD (name.bytes.take 26).length 0 :=
            hfield ⟨_, _⟩ (show (name.bytes.take 26).length < 26 by omega)
        _ = 0 := List.getD_eq_default _ _ htake.ge

theorem inode_fill {entry : Dirent} {inum : Nat} {name : CStr} (h : inum < bitmapBits) :
    (entry.fill inum name).inode.toNat = inum := by
  rw [Dirent.fill, BitVec.toNat_ofNat, Nat.mod_eq_of_lt (h.trans (by decide))]

/-! ### The new entry -/

/-- How `addEntry` ends: without a slot, or with the new entry in the first unused slot. -/
inductive AddsEntry (disk : Nat → Block) (dir inum : Nat) (name : CStr) :
    Except Stop Int → List Event → Prop
  | full (reason : Stop) : AddsEntry disk dir inum name (.error reason) []
  | done {hit : Hit} (hsearch : searchDirIn isUnused (inodeAt disk dir) disk = .ok (some hit)) :
      AddsEntry disk dir inum name (.ok 0)
        [.blockWrite ((inodeAt disk dir).ptrs hit.index).toNat
          (hit.block.setDirent hit.slot (hit.entry.fill inum name))]

/-- Where `fs_create` and `fs_mkdir` put a new entry: a directory without an entry of that name. -/
structure CreateAt (limits : Limits) (fs : Fs) (path name : CStr) (dir : Nat) : Prop where
  parent : parentDirIn limits fs.disk path = .ok (name, inodeAt fs.disk dir)
  reach : (tree fs.disk).Reach dir
  mode : S_ISDIR (inodeAt fs.disk dir).mode = true
  search : searchDirIn (hasName name) (inodeAt fs.disk dir) fs.disk = .ok none

section Entry

variable {env : Env} {fs : Fs}

theorem Claimable.not_inUse (h : Sound fs) {claimed : List Nat} (hclaim : Claimable fs claimed) {b : Nat}
    (hb : b ∈ claimed) : ¬(tree fs.disk).InUse b := h.not_inUse (hclaim.clear b hb)

theorem Claimable.writable {claimed : List Nat} (hclaim : Claimable fs claimed) {b : Nat} (hb : b ∈ claimed) :
    Writable b :=
  ⟨by have := (hclaim.range b hb).1; omega, (hclaim.range b hb).2.2.trans (by decide)⟩

theorem acts_addEntry (h : Sound fs) {dir inum : Nat} {name : CStr} (hreach : (tree fs.disk).Reach dir)
    (hmode : S_ISDIR (inodeAt fs.disk dir).mode = true) (full : Errno) {fs' : Fs}
    (hkeep : KeepsBut (fun _ => False) fs.disk fs'.disk) :
    Acts env fs' (addEntry (inodeAt fs.disk dir) inum name full) (AddsEntry fs.disk dir inum name) := by
  have hsame : searchDirIn isUnused (inodeAt fs.disk dir) fs'.disk =
      searchDirIn isUnused (inodeAt fs.disk dir) fs.disk :=
    searchDirIn_congr fun i hi => by
      have hslot : HasSlot fs.disk dir (i, 0) := ⟨hmode, hi⟩
      exact hkeep _ (Graph.Uses.cell hreach hslot.cell).inUse id
  refine .read (hsame ▸ reads_searchDir) (fun reason _ => .full reason) fun found hsearch => ?_
  cases found with
  | none => exact .stop (.full _)
  | some hit =>
      exact ⟨_, _, does_bind_read (does_blockWrite (h.hit_writable hreach hmode hsearch) _) (Follows.pure 0),
        .done hsearch⟩

theorem createAt_of_parentDirIn {limits : Limits} {path name : CStr} {parent : Inode}
    (hparent : parentDirIn limits fs.disk path = .ok (name, parent))
    (hsearch : searchDirIn (hasName name) parent fs.disk = .ok none) :
    ∃ dir, parent = inodeAt fs.disk dir ∧ CreateAt limits fs path name dir := by
  obtain ⟨init, dir, -, hinit, rfl, hmode⟩ := parentDirIn_eq_ok hparent
  exact ⟨dir, rfl, hparent, reach_of_descend hinit, hmode, hsearch⟩

end Entry

/-! ### `fs_create` -/

/-- How `fs_create` ends: early, or with a block marked, the inode written to it and, where there is a
slot for it, the new entry. -/
inductive Create (env : Env) (fs : Fs) (path : CStr) (mode : UInt32) : Except Stop Int → List Event → Prop
  | stops (reason : Stop) : Create env fs path mode (.error reason) []
  | marked {dir inum : Nat} {name : CStr} {value : Except Stop Int} {last : List Event}
      (hat : CreateAt env.limits fs path name dir)
      (hclear : clearBit fs.bitmap fs.diskSize = .ok (some inum))
      (hlast : AddsEntry fs.disk dir inum name value last) :
      Create env fs path mode value
        (.bitSet inum :: .blockWrite 1 (bitSet fs.bitmap inum) ::
          .blockWrite inum (newInode env mode).toBlock :: last)

/-- Nothing that the trace did touches the tree. -/
def Undone (fs : Fs) (events : List Event) : Prop :=
  ∀ event ∈ events, Silent fs.disk (fun _ => False) event ∧ event.Spares

section Create

variable {env : Env} {fs : Fs}

theorem Undone.silent {events : List Event} (h : Undone fs events) {except : Nat → Prop} :
    ∀ event ∈ events, Silent fs.disk except event := by
  intro event hevent
  have hsilent := (h event hevent).1
  cases event with
  | bitSet i => exact hsilent
  | bitClear i => exact hsilent
  | blockWrite lba block => exact fun huse => (hsilent huse).elim

theorem undone_append {first second : List Event} :
    Undone fs (first ++ second) ↔ Undone fs first ∧ Undone fs second := List.forall_mem_append

theorem silent_bitmapWrite (h : Sound fs) {except : Nat → Prop} (block : Block) :
    Silent fs.disk except (.blockWrite 1 block) := fun huse => absurd huse (h.reserved (by decide))

/-- Undoing leaves the tree alone, where the cleared bits are those of blocks that are not in use. -/
theorem ensures_undone (h : Sound fs) {first : List Event} (hfirst : Undone fs first) (bits : List Nat)
    (hbits : ∀ b ∈ bits, 2 ≤ b ∧ ¬(tree fs.disk).InUse b) {fs' : Fs} {clear : Call Unit}
    (hclear : Does env fs' clear (.ok ()) (bits.map .bitClear)) (hquiet : ¬env.Quiet) :
    Ensures recorder env fs' (do
      clear
      let _ ← tryBlockWrite 1 (← getBitmap)
      err Errno.EIO : Call Int) fun result events =>
        (∃ reason, env.BreaksOff reason ∧ result = .error reason) ∧ Undone fs (first ++ events) := by
  refine (ensures_undo hclear hquiet).mono fun result events hpost => ⟨hpost.1, undone_append.mpr ⟨hfirst, ?_⟩⟩
  intro event hevent
  rcases hpost.2 event hevent with hclear | ⟨block, rfl⟩
  · obtain ⟨b, hb, rfl⟩ := List.mem_map.mp hclear
    exact ⟨(hbits b hb).2, (hbits b hb).1⟩
  · exact ⟨silent_bitmapWrite h block, trivial⟩

theorem attempts_fsCreate (h : Sound fs) (path : CStr) (mode : UInt32) :
    Attempts (Undone fs) env fs (fsCreate path mode) (Create env fs path mode) := by
  refine .read (reads_parentDir path) (fun reason _ => .stops reason) ?_
  rintro ⟨name, parent⟩ hparent
  refine .read reads_searchDir (fun reason _ => .stops reason) fun found hsearch => ?_
  rcases found with _ | hit
  · obtain ⟨dir, rfl, hat⟩ := createAt_of_parentDirIn hparent hsearch
    refine .read reads_getBitmap (fun reason _ => .stops reason) fun map hmap => ?_
    refine .read reads_getDiskSize (fun reason _ => .stops reason) fun diskSize hdiskSize => ?_
    obtain rfl := Except.ok.inj hmap
    obtain rfl := Except.ok.inj hdiskSize
    refine .read (Follows.lift _) (fun reason _ => .stops reason) fun found hclear => ?_
    rcases found with _ | inum
    · exact .of_acts (.stop (.stops _))
    · have hclaim := claimable_of_clearBit hclear
      have hfree : ¬(tree fs.disk).InUse inum := hclaim.not_inUse h List.mem_cons_self
      obtain ⟨hinum2, -, hinum⟩ := hclaim.range inum List.mem_cons_self
      have hmarked : Undone fs [.bitSet inum, .blockWrite 1 (bitSet fs.bitmap inum)] := by
        simp only [Undone, List.forall_mem_cons, List.not_mem_nil, false_imp_iff, implies_true, and_true]
        exact ⟨⟨hinum, trivial⟩, silent_bitmapWrite h _, trivial⟩
      have hprepared : Undone fs ([Event.bitSet inum, .blockWrite 1 (bitSet fs.bitmap inum)] ++
          [Event.blockWrite inum (newInode env mode).toBlock]) :=
        undone_append.mpr ⟨hmarked, by simp [Undone, Silent, Event.Spares, hfree]⟩
      obtain ⟨value, last, hentry, hlast⟩ : Acts env _ (addEntry (inodeAt fs.disk dir) inum name .ENOSPC) _ :=
        acts_addEntry h hat.reach hat.mode .ENOSPC (keeps_replay hprepared.silent).disk
      exact ⟨value, _, .bind (does_bitmapSet hinum) (.bind does_bitmapWrite (.bind Follows.ask
        (.tryBlockWrite (hclaim.writable List.mem_cons_self) (.of_does hentry)
          (ensures_undone h hmarked [inum] (by simpa using ⟨hinum2, hfree⟩) (does_bitmapClear hinum))))),
        .marked hat hclear hlast⟩
  · exact .of_acts (.stop (.stops _))

end Create

/-! ### `fs_mkdir` -/

/-- How `fs_mkdir` ends: early, or with two blocks marked, the inode and an empty directory block written
to them and, where there is a slot for it, the new entry. -/
inductive Mkdir (env : Env) (fs : Fs) (path : CStr) (mode : UInt32) : Except Stop Int → List Event → Prop
  | stops (reason : Stop) : Mkdir env fs path mode (.error reason) []
  | marked {dir inum block : Nat} {name : CStr} {value : Except Stop Int} {last : List Event}
      (hat : CreateAt env.limits fs path name dir) (hclaim : Claimable fs [inum, block])
      (hlast : AddsEntry fs.disk dir inum name value last) :
      Mkdir env fs path mode value
        (.bitSet inum :: .bitSet block :: .blockWrite 1 (setAll fs.bitmap [inum, block]) ::
          .blockWrite inum (newDirInode env mode block).toBlock :: .blockWrite block Block.zero :: last)

section Mkdir

variable {env : Env} {fs : Fs}

theorem attempts_fsMkdir (h : Sound fs) (path : CStr) (mode : UInt32) :
    Attempts (Undone fs) env fs (fsMkdir path mode) (Mkdir env fs path mode) := by
  refine .read (reads_parentDir path) (fun reason _ => .stops reason) ?_
  rintro ⟨name, parent⟩ hparent
  refine .read reads_searchDir (fun reason _ => .stops reason) fun found hsearch => ?_
  rcases found with _ | hit
  · obtain ⟨dir, rfl, hat⟩ := createAt_of_parentDirIn hparent hsearch
    refine .read reads_getBitmap (fun reason _ => .stops reason) fun map hmap => ?_
    refine .read reads_getDiskSize (fun reason _ => .stops reason) fun diskSize hdiskSize => ?_
    obtain rfl := Except.ok.inj hmap
    obtain rfl := Except.ok.inj hdiskSize
    refine .read (Follows.lift _) (fun reason _ => .stops reason) ?_
    rintro ⟨inum, block⟩ hclear
    dsimp only
    split
    · exact .of_acts (.stop (.stops _))
    · rename_i hfound
      rw [not_or] at hfound
      have hclaim := claimable_of_clearBits hclear hfound.2
      have hfree : ∀ b ∈ [inum, block], ¬(tree fs.disk).InUse b := fun b => hclaim.not_inUse h
      have hbits : ∀ b ∈ [inum, block], b < bitmapBits := fun b hb => (hclaim.range b hb).2.2
      have hwritable : ∀ b ∈ [inum, block], Writable b := fun b => hclaim.writable
      simp only [List.forall_mem_cons, List.not_mem_nil, false_imp_iff, implies_true, and_true] at hbits hwritable
      have hmarked : Undone fs [.bitSet inum, .bitSet block, .blockWrite 1 (setAll fs.bitmap [inum, block])] := by
        simp only [Undone, List.forall_mem_cons, List.not_mem_nil, false_imp_iff, implies_true, and_true]
        exact ⟨⟨hbits.1, trivial⟩, ⟨hbits.2, trivial⟩, silent_bitmapWrite h _, trivial⟩
      have hwritten : ∀ b ∈ [inum, block], ∀ contents, Undone fs [.blockWrite b contents] :=
        fun b hb contents => by simp [Undone, Silent, Event.Spares, hfree b hb]
      have hinode := undone_append.mpr ⟨hmarked, hwritten inum (by simp) (newDirInode env mode block).toBlock⟩
      obtain ⟨value, last, hentry, hlast⟩ : Acts env _ (addEntry (inodeAt fs.disk dir) inum name .EOPNOTSUPP) _ :=
        acts_addEntry h hat.reach hat.mode .EOPNOTSUPP
          (keeps_replay (undone_append.mpr ⟨hinode, hwritten block (by simp) Block.zero⟩).silent).disk
      have hclearing : ∀ fs', Does env fs' (do bitmapClear inum; bitmapClear block) (.ok ())
          ([inum, block].map .bitClear) := fun fs' =>
        does_bind (does_bitmapClear hbits.1) (does_bitmapClear hbits.2)
      have hundo : ∀ {first : List Event}, Undone fs first → ∀ fs', ¬env.Quiet →
          Ensures recorder env fs' (undoMkdir inum block) fun result events =>
            (∃ reason, env.BreaksOff reason ∧ result = .error reason) ∧ Undone fs (first ++ events) :=
        fun hfirst fs' hquiet => by
          have hundone := ensures_undone h hfirst _ (fun b hb => ⟨(hclaim.range b hb).1, hfree b hb⟩) (hclearing fs') hquiet
          rwa [bind_assoc] at hundone
      exact ⟨value, _, .bind (does_bitmapSet hbits.1) (.bind (does_bitmapSet hbits.2) (.bind does_bitmapWrite
        (.bind Follows.ask (.tryBlockWrite hwritable.1
          (.tryBlockWrite hwritable.2 (.of_does hentry) (hundo hinode _)) (hundo hmarked _))))),
        .marked hat hclaim hlast⟩
  · exact .of_acts (.stop (.stops _))

end Mkdir

end Fs5600
