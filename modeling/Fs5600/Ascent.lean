import Fs5600.Chain

/-! Paths that ascend. `translate` keeps a stack of parents, but goes back to the entry below the top: from the
second level down, `..` leads to the parent of the parent. `resolve_path` removes one name. The two agree where
the last ascent of a path ends in the root directory. -/

namespace Fs5600

open Ownership Command

/-- What `translate` finds for a path, it finds for the resolved path. -/
def WalksAgree (env : Env) (fs : Fs) (path : CStr) : Prop :=
  ∀ inum inode, (translate path env (.start fs)).1 = .ok (inum, inode) →
    ∃ inode', (translate (joinPath (resolvePath (pathparse path))) env (.start fs)).1 = .ok (inum, inode')

/-- After the last place where nothing is left of the resolved path, there is no `..`. -/
def EndsAtRoot (names : List CStr) : Prop :=
  ∃ init rest, names = init ++ rest ∧ resolvePath init = [] ∧ dotdot ∉ rest

/-- Some name fits no directory entry. -/
def HasLongName (names : List CStr) : Prop := ∃ c ∈ names, IsName c ∧ nameLen ≤ c.bytes.length

/-! ### The stack of parents -/

section Walk

variable {limits : Limits} {disk : Nat → Block} {names resolved : List CStr} {st st' : WalkState} {name : CStr}

theorem walkLoopIn_append (names' : List CStr) :
    walkLoopIn limits disk (names ++ names') st =
      walkLoopIn limits disk names st >>= fun next => walkLoopIn limits disk names' next := by
  induction names generalizing st with
  | nil => rfl
  | cons name rest ih =>
      rw [List.cons_append, walkLoopIn, walkLoopIn]
      rcases walkStepIn limits disk st name with reason | next
      · rfl
      · exact ih

/-- The stack has as many entries above its bottom as there are resolved names. -/
structure Tracks (resolved : List CStr) (st : WalkState) : Prop where
  depth : st.stackPos = resolved.length
  bottom : st.parentStack 0 = 2
  root : st.stackPos = 0 → st.current = 2

theorem tracks_start : Tracks [] .start := ⟨rfl, rfl, fun _ => rfl⟩

theorem Tracks.step (h : Tracks resolved st) (hstep : walkStepIn limits disk st name = .ok st') :
    Tracks (resolveStep resolved name) st' := by
  have hdepth := h.depth
  cases walkStep_of_eq_ok hstep with
  | stay =>
      rw [resolveStep, if_pos rfl]
      exact h
  | top hpos =>
      have hnone : resolved = [] := List.length_eq_zero_iff.mp (hdepth.symm.trans hpos)
      rw [resolveStep, if_neg (by decide), if_pos rfl, hnone, List.dropLast_nil, ← hnone]
      exact h
  | pop hpos =>
      rw [resolveStep, if_neg (by decide), if_pos rfl]
      refine ⟨?_, h.bottom, fun hzero => ?_⟩
      · simp only [List.length_dropLast]
        omega
      · exact (congrArg st.parentStack hzero).trans h.bottom
  | push hname hchild hstack =>
      rw [resolveStep_of_isName hname]
      refine ⟨?_, ?_, fun hzero => absurd hzero (Nat.succ_ne_zero _)⟩
      · simp only [List.length_append, List.length_singleton]
        omega
      · dsimp only
        rw [Function.update_of_ne (Nat.succ_ne_zero _).symm]
        exact h.bottom

theorem Tracks.walk (h : Tracks resolved st) (hwalk : walkLoopIn limits disk names st = .ok st') :
    Tracks (names.foldl resolveStep resolved) st' := by
  induction names generalizing resolved st with
  | nil => exact Except.ok.inj hwalk ▸ h
  | cons name rest ih =>
      obtain ⟨next, hstep, hrest⟩ := exceptBind_eq_ok hwalk
      exact ih (h.step hstep) hrest

theorem endsAtRoot_of_resolved (h : resolvePath names = []) : EndsAtRoot names :=
  ⟨names, [], (List.append_nil names).symm, h, List.not_mem_nil⟩

theorem EndsAtRoot.snoc (h : EndsAtRoot names) (hname : name ≠ dotdot) : EndsAtRoot (names ++ [name]) := by
  obtain ⟨init, rest, rfl, hinit, hrest⟩ := h
  refine ⟨init, rest ++ [name], List.append_assoc _ _ _, hinit, ?_⟩
  simp only [List.mem_append, List.mem_singleton, not_or]
  exact ⟨hrest, hname.symm⟩

/-- Some names lead to where a walk stands, no more than its stack is high; and fewer lead to the parents. -/
structure High (disk : Nat → Block) (st : WalkState) (down : List CStr) : Prop where
  current : descend disk 2 down = .ok st.current
  le : down.length ≤ st.stackPos
  stack : ∀ j ≤ st.stackPos, ∃ up, descend disk 2 up = .ok (st.parentStack j) ∧ up.length ≤ j - 1

theorem walkLoopIn_snoc (h : walkLoopIn limits disk (names ++ [name]) st = .ok st') :
    ∃ mid, walkLoopIn limits disk names st = .ok mid ∧ walkStepIn limits disk mid name = .ok st' := by
  rw [walkLoopIn_append] at h
  obtain ⟨mid, hwalk, hlast⟩ := exceptBind_eq_ok h
  obtain ⟨next, hstep, hend⟩ := exceptBind_eq_ok hlast
  obtain rfl := Except.ok.inj hend
  exact ⟨mid, hwalk, hstep⟩

/-- A walk stands too high in the tree, unless its last ascent ended in the root directory. -/
theorem walk_high (hwalk : walkLoopIn limits disk names .start = .ok st) :
    ∃ down, High disk st down ∧ (down.length < st.stackPos ∨ EndsAtRoot names) := by
  induction names using List.reverseRecOn generalizing st with
  | nil =>
      obtain rfl := Except.ok.inj hwalk
      exact ⟨[], ⟨rfl, Nat.le_refl _, fun j _ => ⟨[], rfl, Nat.zero_le _⟩⟩, Or.inr (endsAtRoot_of_resolved rfl)⟩
  | append_singleton walked name ih =>
      have htracks : Tracks (resolvePath (walked ++ [name])) st := tracks_start.walk hwalk
      obtain ⟨mid, hfirst, hstep⟩ := walkLoopIn_snoc hwalk
      obtain ⟨down, hhigh, hbehind⟩ := ih hfirst
      have hroot : st.stackPos = 0 → EndsAtRoot (walked ++ [name]) := fun hzero =>
        endsAtRoot_of_resolved (List.length_eq_zero_iff.mp (htracks.depth.symm.trans hzero))
      cases walkStep_of_eq_ok hstep with
      | stay => exact ⟨down, hhigh, hbehind.imp_right fun hends => hends.snoc (by decide)⟩
      | top hpos => exact ⟨down, hhigh, Or.inr (hroot hpos)⟩
      | pop hpos =>
          dsimp only at hroot
          obtain ⟨up, hup, hle⟩ := hhigh.stack (mid.stackPos - 1) (by omega)
          refine ⟨up, ⟨hup, by dsimp only; omega, fun j hj => hhigh.stack j (by dsimp only at hj; omega)⟩, ?_⟩
          by_cases hone : mid.stackPos = 1
          · exact Or.inr (hroot (by omega))
          · exact Or.inl (by dsimp only; omega)
      | @push _ inum hname hchild hstack =>
          have hle := hhigh.le
          have hdown : descend disk 2 (down ++ [name]) = .ok inum := by
            rw [descend_append, hhigh.current]
            exact descend_singleton.trans hchild
          refine ⟨down ++ [name], ⟨hdown, ?_, fun j hj => ?_⟩, ?_⟩
          · simp only [List.length_append, List.length_singleton]
            omega
          · dsimp only at hj ⊢
            by_cases htop : j = mid.stackPos + 1
            · subst htop
              exact ⟨down, by rw [Function.update_self, hhigh.current], by omega⟩
            · rw [Function.update_of_ne htop]
              exact hhigh.stack j (by omega)
          · rw [List.length_append, List.length_singleton]
            exact hbehind.imp Nat.succ_lt_succ fun hends => hends.snoc hname.2

/-- A name that is looked up fits an entry. -/
theorem length_of_walk (hwalk : walkLoopIn limits disk names st = .ok st') :
    ∀ c ∈ names, IsName c → c.bytes.length < nameLen := by
  induction names generalizing st with
  | nil => simp
  | cons name rest ih =>
      obtain ⟨next, hstep, hrest⟩ := exceptBind_eq_ok hwalk
      intro c hc hname
      rcases List.mem_cons.mp hc with rfl | hc
      · exact length_of_childIn (walkStepIn_of_isName hname hstep).1
      · exact ih hrest c hc hname

end Walk

section Agree

variable {env : Env} {fs : Fs} {path : CStr}

/-- Where the last ascent ends in the root directory, the walk goes down the resolved names. -/
theorem descend_of_endsAtRoot {limits : Limits} {disk : Nat → Block} {inum : Nat} {inode : Inode}
    (hends : EndsAtRoot (pathparse path)) (h : translateIn limits disk path = .ok (inum, inode)) :
    descend disk 2 (resolvePath (pathparse path)) = .ok inum := by
  obtain ⟨init, rest, hsplit, hinit, hrest⟩ := hends
  obtain ⟨st, hwalk, hfound⟩ := exceptBind_eq_ok h
  obtain ⟨rfl, -⟩ := Prod.mk.inj (Except.ok.inj hfound)
  rw [hsplit, walkLoopIn_append] at hwalk
  obtain ⟨mid, hfirst, hlast⟩ := exceptBind_eq_ok hwalk
  have htracks : Tracks (resolvePath init) mid := tracks_start.walk hfirst
  rw [hinit] at htracks
  have hnames := fun c => @isName_of_mem_withoutDots _ hrest c
  rw [walkLoopIn_withoutDots] at hlast
  have hdescend := (walkLoopIn_of_isName hnames hlast).1
  rw [htracks.root htracks.depth] at hdescend
  have hresolved : resolvePath (init ++ rest) = withoutDots rest :=
    calc resolvePath (init ++ rest) = resolvePath (resolvePath init ++ rest) := resolvePath_append init rest
      _ = resolvePath rest := by rw [hinit, List.nil_append]
      _ = resolvePath (withoutDots rest) := resolvePath_withoutDots rest
      _ = withoutDots rest := resolvePath_of_isName hnames
  rwa [hsplit, hresolved]

theorem translateIn_resolved {limits : Limits} {disk : Nat → Block} {inum : Nat} (hlimits : Roomy limits)
    (hshort : (pathparse path).length < maxPathLen)
    (h : descend disk 2 (resolvePath (pathparse path)) = .ok inum) :
    translateIn limits disk (joinPath (resolvePath (pathparse path))) = .ok (inum, inodeAt disk inum) := by
  obtain ⟨hnames, hlength⟩ := resolved_components path
  have hparse := pathparse_joinPath_of_length_le (fun c hc => (hnames c hc).1) hlength
  refine translateIn_of_descend ?_ ?_ ?_ <;> rw [hparse]
  · exact fun c hc => (hnames c hc).2
  · calc (resolvePath (pathparse path)).length ≤ (pathparse path).length := resolvePath_length_le _
      _ < maxPathLen := hshort
      _ ≤ limits.parentStack := hlimits.stack
  · exact h

theorem walksAgree_of_endsAtRoot (hquiet : env.Quiet) (hlimits : Roomy env.limits)
    (hshort : (pathparse path).length < maxPathLen) (hends : EndsAtRoot (pathparse path)) :
    WalksAgree env fs path := by
  intro inum inode h
  rw [translate_value hquiet] at h
  rw [translate_value hquiet]
  exact ⟨_, translateIn_resolved hlimits hshort (descend_of_endsAtRoot hends h)⟩

/-- A path with a name that fits no entry is never found. -/
theorem walksAgree_of_longName (hquiet : env.Quiet) (hlong : HasLongName (pathparse path)) :
    WalksAgree env fs path := by
  intro inum inode h
  rw [translate_value hquiet] at h
  obtain ⟨st, hwalk, -⟩ := exceptBind_eq_ok h
  obtain ⟨c, hc, hname, hlength⟩ := hlong
  exact absurd (length_of_walk hwalk c hc hname) (not_lt.mpr hlength)

end Agree

/-! ### Ladders -/

/-- The entry of a name that leads to an inode. -/
def ladderEntry (inum : Nat) (name : CStr) : Dirent := ⟨true, BitVec.ofNat 31 inum, fun j => name.bytes.getD j 0⟩

def ladderBlock (inum : Nat) : List CStr → Block
  | [] => Block.zero
  | name :: rest => (ladderBlock inum rest).setDirent (Fin.ofNat direntsPerBlock rest.length) (ladderEntry inum name)

/-- A disk on which every directory has an entry for each of the names, and all of them lead to the next one.
Directory `i` has its inode in block `2 * i + 2` and its entries in the block after it. -/
def ladderDisk (names : List CStr) (lba : Nat) : Block :=
  if lba % 2 = 0 then (inodeOf (S_IFDIR ||| 0o777) 4096 [lba + 1]).toBlock else ladderBlock (lba + 1) names

section Ladder

variable {names : List CStr} {name : CStr} {inum i : Nat}

theorem dirent_ladderBlock (inum : Nat) (names : List CStr) (slot : Fin direntsPerBlock) :
    (∃ c ∈ names, (ladderBlock inum names).dirent slot = ladderEntry inum c) ∨
      ((ladderBlock inum names).dirent slot).valid = false := by
  induction names with
  | nil => exact Or.inr (Block.valid_dirent_zero slot)
  | cons name rest ih =>
      rw [ladderBlock, Block.dirent_setDirent]
      split
      · exact Or.inl ⟨name, List.mem_cons_self, rfl⟩
      · exact ih.imp_left fun ⟨c, hc, hentry⟩ => ⟨c, List.mem_cons_of_mem _ hc, hentry⟩

theorem exists_dirent_ladderBlock (hsmall : names.length ≤ direntsPerBlock) (hname : name ∈ names) :
    ∃ slot, slot.val < names.length ∧ (ladderBlock inum names).dirent slot = ladderEntry inum name := by
  induction names with
  | nil => cases hname
  | cons head rest ih =>
      rw [List.length_cons] at hsmall
      have hlast : (Fin.ofNat direntsPerBlock rest.length).val = rest.length := Nat.mod_eq_of_lt hsmall
      rcases List.mem_cons.mp hname with rfl | hrest
      · exact ⟨_, by rw [hlast, List.length_cons]; exact Nat.lt_succ_self _, Block.dirent_setDirent_self _ _ _⟩
      · obtain ⟨slot, hlt, hentry⟩ := ih (by omega) hrest
        have hne : slot ≠ Fin.ofNat direntsPerBlock rest.length := fun heq => by
          rw [heq, hlast] at hlt
          exact lt_irrefl _ hlt
        exact ⟨slot, by rw [List.length_cons]; omega, (Block.dirent_setDirent_ne _ _ hne).trans hentry⟩

/-- A directory of a ladder has one block of entries. -/
theorem dir_ladderDisk (names : List CStr) (hi : i ≤ maxPathLen) :
    S_ISDIR (inodeAt (ladderDisk names) (2 * i + 2)).mode = true ∧
      (inodeAt (ladderDisk names) (2 * i + 2)).dirBlocks = 1 ∧
      ladderDisk names ((inodeAt (ladderDisk names) (2 * i + 2)).ptrs 0).toNat = ladderBlock (2 * i + 4) names := by
  simp only [maxPathLen] at hi
  have hinode : inodeAt (ladderDisk names) (2 * i + 2) = inodeOf (S_IFDIR ||| 0o777) 4096 [2 * i + 3] := by
    rw [inodeAt, ladderDisk, if_pos (by omega), Inode.ofBlock_toBlock]
  have hptr : ((inodeOf (S_IFDIR ||| 0o777) 4096 [2 * i + 3]).ptrs 0).toNat = 2 * i + 3 := by
    rw [inodeOf, Inode.setPtrs]
    dsimp only
    rw [if_pos (by simp)]
    simp only [Fin.val_zero, Nat.sub_zero, List.getD_cons_zero, UInt32.toNat_ofNat']
    omega
  rw [hinode]
  refine ⟨(by decide : S_ISDIR (S_IFDIR ||| 0o777) = true),
    (by decide : (4096 : Int32).toInt.toNat / fsBlockSize = 1), ?_⟩
  rw [hptr, ladderDisk, if_neg (by omega)]

/-- Whatever is found in a directory of a ladder is the next directory. -/
theorem childIn_ladder_eq (hi : i ≤ maxPathLen) (h : childIn (ladderDisk names) (2 * i + 2) name = .ok inum) :
    inum = 2 * (i + 1) + 2 := by
  obtain ⟨-, hone, hblock⟩ := dir_ladderDisk names hi
  obtain ⟨-, hit, hsearch, rfl⟩ := childIn_eq_ok h
  obtain ⟨hlt, hread, htest⟩ := searchDirIn_eq_some hsearch
  have hindex : hit.index = 0 := Fin.ext (by rw [hone] at hlt; simpa using hlt)
  rw [hindex, hblock] at hread
  simp only [maxPathLen] at hi
  rcases dirent_ladderBlock (2 * i + 4) names hit.slot with ⟨c, hc, hentry⟩ | hinvalid
  · rw [Hit.entry, hread, hentry, ladderEntry]
    simp only [BitVec.toNat_ofNat]
    omega
  · rw [Hit.entry, hread, hasName, if_neg (by simp [hinvalid])] at htest
    cases htest

/-- A name of a ladder leads from one directory to the next. -/
theorem childIn_ladderDisk (hsmall : names.length ≤ maxPathLen) (hshort : ∀ c ∈ names, c.bytes.length < nameLen)
    (hname : name ∈ names) (hi : i ≤ maxPathLen) :
    childIn (ladderDisk names) (2 * i + 2) name = .ok (2 * (i + 1) + 2) := by
  obtain ⟨hmode, hone, hblock⟩ := dir_ladderDisk names hi
  have hstored : ∀ c ∈ names, hasName name (ladderEntry (2 * i + 4) c) = .ok (c.bytes == name.bytes) := by
    intro c hc
    have hstored : (ladderEntry (2 * i + 4) c).storedName = c.bytes := storedName_field true _ (hshort c hc)
    have hvalid : (ladderEntry (2 * i + 4) c).valid = true := rfl
    rw [hasName, if_pos hvalid, strcmp_of_length (hstored ▸ hshort c hc), hstored]
  obtain ⟨found, hsearch⟩ : ∃ found, searchDirIn (hasName name) (inodeAt (ladderDisk names) (2 * i + 2))
      (ladderDisk names) = .ok found := by
    refine searchLoopIn_ok (by rw [hone]; decide) fun j _ hj s => ?_
    obtain rfl : j = 0 := Fin.ext (by rw [hone] at hj; simpa using hj)
    rw [hblock]
    rcases dirent_ladderBlock (2 * i + 4) names s with ⟨c, hc, hentry⟩ | hinvalid
    · exact ⟨_, hentry ▸ hstored c hc⟩
    · exact ⟨false, by rw [hasName, if_neg (by simp [hinvalid])]⟩
  rcases found with _ | hit
  · have hroom : names.length ≤ direntsPerBlock := hsmall.trans (by decide)
    obtain ⟨slot, -, hentry⟩ := @exists_dirent_ladderBlock names name (2 * i + 4) hroom hname
    have hnone := searchDirIn_eq_none hsearch (show (0 : Fin numPtrs).val < _ by rw [hone]; decide) slot
    rw [hblock, hentry, hstored name hname, beq_self_eq_true] at hnone
    cases hnone
  · have hchild := childIn_of_search hmode hsearch
    rw [hchild, childIn_ladder_eq hi hchild]

theorem descend_ladderDisk (hsmall : names.length ≤ maxPathLen) (hshort : ∀ c ∈ names, c.bytes.length < nameLen)
    {down : List CStr} (hdown : ∀ c ∈ down, c ∈ names) (hi : i + down.length ≤ maxPathLen) :
    descend (ladderDisk names) (2 * i + 2) down = .ok (2 * (i + down.length) + 2) := by
  induction down generalizing i with
  | nil => rfl
  | cons name rest ih =>
      rw [List.length_cons] at hi ⊢
      rw [descend, childIn_ladderDisk hsmall hshort (hdown name List.mem_cons_self) (by omega)]
      refine (ih (fun c hc => hdown c (List.mem_cons_of_mem _ hc)) (by omega)).trans ?_
      exact congrArg (fun k => Except.ok (2 * k + 2)) (by omega)

end Ladder

/-! ### Walks on ladders -/

section Walks

variable {limits : Limits} {names walked : List CStr} {st : WalkState}

/-- Names that lead down a ladder lead to the directory of their number. -/
theorem descend_ladder_eq {down : List CStr} {i inum : Nat} (hi : i + down.length ≤ maxPathLen)
    (h : descend (ladderDisk names) (2 * i + 2) down = .ok inum) :
    inum = 2 * (i + down.length) + 2 := by
  induction down generalizing i with
  | nil => exact (Except.ok.inj h).symm
  | cons name rest ih =>
      rw [List.length_cons] at hi ⊢
      obtain ⟨next, hchild, hrest⟩ := exceptBind_eq_ok h
      rw [childIn_ladder_eq (by omega) hchild] at hrest
      rw [ih (by omega) hrest]
      omega

/-- A walk over names of the ladder does not fail. -/
theorem walk_ladderDisk (hlimits : Roomy limits) (hsmall : names.length ≤ maxPathLen)
    (hshort : ∀ c ∈ names, c.bytes.length < nameLen) (hin : ∀ c ∈ walked, IsName c → c ∈ names)
    (hlength : walked.length < maxPathLen) :
    ∃ st, walkLoopIn limits (ladderDisk names) walked .start = .ok st := by
  induction walked using List.reverseRecOn with
  | nil => exact ⟨.start, rfl⟩
  | append_singleton walked name ih =>
      rw [List.length_append, List.length_singleton] at hlength
      obtain ⟨st, hwalk⟩ := ih (fun c hc => hin c (List.mem_append_left _ hc)) (by omega)
      have htracks : Tracks (resolvePath walked) st := tracks_start.walk hwalk
      have hdepth := htracks.depth.le.trans (resolvePath_length_le walked)
      obtain ⟨down, hhigh, -⟩ := walk_high hwalk
      have hle := hhigh.le
      suffices ∃ st', walkStepIn limits (ladderDisk names) st name = .ok st' by
        obtain ⟨st', hstep⟩ := this
        refine ⟨st', ?_⟩
        rw [walkLoopIn_append, hwalk]
        change walkLoopIn limits (ladderDisk names) [name] st = _
        rw [walkLoopIn, hstep]
        rfl
      by_cases hname : IsName name
      · have hroom : st.stackPos + 1 < limits.parentStack := by
          have := hlimits.stack
          omega
        have hcurrent := @descend_ladder_eq names down 0 st.current (by omega) hhigh.current
        have hchild := @childIn_ladderDisk names name down.length hsmall hshort (hin name (by simp) hname) (by omega)
        rw [Nat.zero_add] at hcurrent
        rw [← hcurrent] at hchild
        exact ⟨_, walkStepIn_eq_ok_of_childIn hname hroom hchild⟩
      · unfold walkStepIn
        split
        · exact ⟨_, rfl⟩
        · rename_i hdot
          have hdotdot : name = dotdot := by
            by_contra hne
            exact hname ⟨hdot, hne⟩
          rw [if_pos hdotdot]
          split <;> exact ⟨_, rfl⟩

end Walks

section Ascent

variable {env : Env} {path : CStr}

/-- The two walks agree on every disk where the last ascent of the path ends in the root directory, or the path
has a name that no disk stores. -/
theorem walksAgree_iff (hquiet : env.Quiet) (hlimits : Roomy env.limits)
    (hshort : (pathparse path).length < maxPathLen) :
    (∀ fs, WalksAgree env fs path) ↔ EndsAtRoot (pathparse path) ∨ HasLongName (pathparse path) := by
  constructor
  · intro hagree
    by_contra hnot
    rw [not_or] at hnot
    obtain ⟨hends, hlong⟩ := hnot
    -- a ladder of the names of the path, on which the walk stands too high
    set names := (pathparse path).filter fun c => decide (IsName c) with hnames
    have hmem : ∀ c, c ∈ names ↔ c ∈ pathparse path ∧ IsName c := fun c => by
      rw [hnames, List.mem_filter, decide_eq_true_iff]
    have hsmall : names.length ≤ maxPathLen := (List.length_filter_le _ _).trans hshort.le
    have hfit : ∀ c ∈ names, c.bytes.length < nameLen := fun c hc => by
      by_contra hlen
      exact hlong ⟨c, ((hmem c).mp hc).1, ((hmem c).mp hc).2, not_lt.mp hlen⟩
    obtain ⟨st, hwalk⟩ := walk_ladderDisk hlimits hsmall hfit (fun c hc hname => (hmem c).mpr ⟨hc, hname⟩) hshort
    have htracks : Tracks (resolvePath (pathparse path)) st := tracks_start.walk hwalk
    have hdepth := htracks.depth
    have hbound := resolvePath_length_le (pathparse path)
    obtain ⟨down, hhigh, hbehind⟩ := walk_high hwalk
    have hlow : down.length < st.stackPos := hbehind.resolve_right hends
    have hcurrent := @descend_ladder_eq names down 0 st.current (by omega) hhigh.current
    have hfound : translateIn env.limits (ladderDisk names) path =
        .ok (st.current, inodeAt (ladderDisk names) st.current) := by
      rw [translateIn, hwalk]
      rfl
    have hdescend : descend (ladderDisk names) 2 (resolvePath (pathparse path)) =
        .ok (2 * (resolvePath (pathparse path)).length + 2) := by
      have hdown := @descend_ladderDisk names 0 hsmall hfit (resolvePath (pathparse path))
        (fun c hc => (hmem c).mpr (mem_resolvePath hc))
        (by rw [Nat.zero_add]; exact (resolvePath_length_le _).trans hshort.le)
      rwa [Nat.mul_zero, Nat.zero_add, Nat.zero_add] at hdown
    obtain ⟨inode', hresolved⟩ := hagree ⟨0, Block.zero, ladderDisk names⟩ st.current
      (inodeAt (ladderDisk names) st.current) ((translate_value hquiet path).trans hfound)
    rw [translate_value hquiet] at hresolved
    have hsame := (Prod.mk.inj (Except.ok.inj (hresolved.symm.trans (translateIn_resolved hlimits hshort hdescend)))).1
    omega
  · rintro (hends | hlong) fs
    · exact walksAgree_of_endsAtRoot hquiet hlimits hshort hends
    · exact walksAgree_of_longName hquiet hlong

end Ascent

/-- The path `/d/../f`, which ascends to the root directory. -/
theorem walksAgree_iff_nameF : WalksAgree (quietEnv 0) sampleImage (joinPath [nameD, dotdot, nameF]) := by
  have hparse : pathparse (joinPath [nameD, dotdot, nameF]) = [nameD, dotdot, nameF] :=
    pathparse_joinPath (by decide)
  refine (walksAgree_iff (quiet_quietEnv 0) (roomy_quietEnv 0) (by rw [hparse]; decide)).mpr (Or.inl ?_) _
  rw [hparse]
  exact ⟨[nameD, dotdot], [nameF], rfl, rfl, by decide⟩

/-- A disk with a directory `d` in a directory `d`. -/
def nestedImage : Fs :=
  imageOf 16 [2, 3, 4, 5, 6, 7]
    [(2, (inodeOf (S_IFDIR ||| 0o777) 4096 [3]).toBlock), (3, entriesOf [(nameD, 4)]),
      (4, (inodeOf (S_IFDIR ||| 0o777) 4096 [5]).toBlock), (5, entriesOf [(nameD, 6)]),
      (6, (inodeOf (S_IFDIR ||| 0o777) 4096 [7]).toBlock)]

/-- The two walks do not always agree: `/d/d/..` leads `translate` to the root directory, not to `/d`. -/
theorem walksAgree_false :
    ¬∀ env fs path, env.Quiet → Roomy env.limits → Mounted fs → WellFormed fs →
      (pathparse path).length < maxPathLen → WalksAgree env fs path := by
  intro h
  have hparse : pathparse (joinPath [nameD, nameD, dotdot]) = [nameD, nameD, dotdot] := pathparse_joinPath (by decide)
  have hagree := h (quietEnv 0) nestedImage (joinPath [nameD, nameD, dotdot]) (quiet_quietEnv 0) (roomy_quietEnv 0)
    (mounted_of_disk (by decide) (by decide) rfl) (wellFormed_of_check (by decide +kernel)) (by rw [hparse]; decide)
  have hwalk : ((translate (joinPath [nameD, nameD, dotdot]) (quietEnv 0) (.start nestedImage)).1.map Prod.fst) = .ok 2 := by
    decide +kernel
  have hresolved : ((translate (joinPath (resolvePath (pathparse (joinPath [nameD, nameD, dotdot])))) (quietEnv 0)
      (.start nestedImage)).1.map Prod.fst) = .ok 4 := by
    decide +kernel
  rcases hfound : (translate (joinPath [nameD, nameD, dotdot]) (quietEnv 0) (.start nestedImage)).1 with
    reason | ⟨inum, inode⟩
  · rw [hfound] at hwalk
    cases hwalk
  · obtain ⟨inode', hother⟩ := hagree inum inode hfound
    rw [hfound] at hwalk
    rw [hother] at hresolved
    have hroot : inum = 2 := Except.ok.inj hwalk
    have hchild : inum = 4 := Except.ok.inj hresolved
    omega

end Fs5600
