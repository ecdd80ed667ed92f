import Fs5600.Tree

/-! Paths without dots: `translate` goes down the tree name by name, and the second walk that finds the
parent stops one name before the first. -/

namespace Fs5600

open Ownership Command

/-- The inode number that the first entry of a name in a directory stores. -/
def childIn (disk : Nat → Block) (dir : Nat) (name : CStr) : Except Stop Nat :=
  if !S_ISDIR (inodeAt disk dir).mode then
    .error (.errno .ENOTDIR)
  else do
    match ← searchDirIn (hasName name) (inodeAt disk dir) disk with
    | none => .error (.errno .ENOENT)
    | some hit => .ok hit.entry.inode.toNat

/-- The inode number that a list of names leads to. -/
def descend (disk : Nat → Block) : Nat → List CStr → Except Stop Nat
  | inum, [] => .ok inum
  | inum, name :: rest => do
      let next ← childIn disk inum name
      descend disk next rest

abbrev labels (names : List CStr) : List (List UInt8) := names.map CStr.bytes

section Names

variable {disk : Nat → Block} {dir inum : Nat} {name : CStr} {names : List CStr} {limits : Limits}
  {st st' : WalkState}

theorem childIn_eq_ok (h : childIn disk dir name = .ok inum) :
    S_ISDIR (inodeAt disk dir).mode = true ∧ ∃ hit,
      searchDirIn (hasName name) (inodeAt disk dir) disk = .ok (some hit) ∧ hit.entry.inode.toNat = inum := by
  unfold childIn at h
  cases hmode : S_ISDIR (inodeAt disk dir).mode with
  | false => simp [hmode] at h
  | true =>
      rw [hmode] at h
      obtain ⟨_ | hit, hsearch, hfound⟩ := exceptBind_eq_ok h
      · cases hfound
      · exact ⟨rfl, hit, hsearch, Except.ok.inj hfound⟩

theorem childIn_of_search {hit : Hit} (hmode : S_ISDIR (inodeAt disk dir).mode = true)
    (h : searchDirIn (hasName name) (inodeAt disk dir) disk = .ok (some hit)) :
    childIn disk dir name = .ok hit.entry.inode.toNat := by
  rw [childIn, hmode, h]
  rfl

theorem descend_append (names' : List CStr) :
    descend disk inum (names ++ names') = descend disk inum names >>= fun next => descend disk next names' := by
  induction names generalizing inum with
  | nil => rfl
  | cons name rest ih =>
      rw [List.cons_append, descend, descend]
      rcases childIn disk inum name with reason | next
      · rfl
      · exact ih

theorem descend_singleton : descend disk inum [name] = childIn disk inum name := by
  unfold descend
  rcases childIn disk inum name with reason | next <;> rfl

theorem descend_snoc_eq_ok (h : descend disk inum (names ++ [name]) = .ok dir) :
    ∃ parent, descend disk inum names = .ok parent ∧ childIn disk parent name = .ok dir := by
  rw [descend_append] at h
  obtain ⟨parent, hparent, hchild⟩ := exceptBind_eq_ok h
  exact ⟨parent, hparent, descend_singleton.symm.trans hchild⟩

/-! ### The walk of `translate` -/

/-- What one turn of the loop of `translate` can do. -/
inductive WalkStep (limits : Limits) (disk : Nat → Block) (st : WalkState) : CStr → WalkState → Prop
  | stay : WalkStep limits disk st dot st
  | top (hpos : st.stackPos = 0) : WalkStep limits disk st dotdot st
  | pop (hpos : 0 < st.stackPos) : WalkStep limits disk st dotdot
      { st with stackPos := st.stackPos - 1, current := st.parentStack (st.stackPos - 1) }
  | push {name : CStr} {inum : Nat} (hname : IsName name) (hchild : childIn disk st.current name = .ok inum)
      (hstack : st.stackPos + 1 < limits.parentStack) : WalkStep limits disk st name
      ⟨Function.update st.parentStack (st.stackPos + 1) st.current, st.stackPos + 1, inum⟩

theorem walkStep_of_eq_ok (h : walkStepIn limits disk st name = .ok st') :
    WalkStep limits disk st name st' := by
  unfold walkStepIn at h
  split at h
  · rename_i hdot
    obtain rfl := Except.ok.inj h
    exact hdot ▸ .stay
  · rename_i hdot
    split at h
    · rename_i hdotdot
      subst hdotdot
      split at h <;> obtain rfl := Except.ok.inj h
      · exact .pop ‹_›
      · exact .top (by omega)
    · rename_i hdotdot
      split at h
      · cases h
      · rename_i hmode
        obtain ⟨_ | hit, hsearch, hfound⟩ := exceptBind_eq_ok h
        · cases hfound
        · simp only at hfound
          split at hfound
          · obtain rfl := Except.ok.inj hfound
            exact .push ⟨hdot, hdotdot⟩ (childIn_of_search (by simpa using hmode) hsearch) ‹_›
          · cases hfound

theorem walkStepIn_of_isName (hname : IsName name) (h : walkStepIn limits disk st name = .ok st') :
    childIn disk st.current name = .ok st'.current ∧ st'.stackPos = st.stackPos + 1 := by
  cases walkStep_of_eq_ok h with
  | stay => exact absurd rfl hname.1
  | top => exact absurd rfl hname.2
  | pop => exact absurd rfl hname.2
  | push _ hchild => exact ⟨hchild, rfl⟩

theorem walkLoopIn_of_isName (hnames : ∀ c ∈ names, IsName c)
    (h : walkLoopIn limits disk names st = .ok st') :
    descend disk st.current names = .ok st'.current ∧ st'.stackPos = st.stackPos + names.length := by
  induction names generalizing st with
  | nil =>
      obtain rfl := Except.ok.inj h
      exact ⟨rfl, rfl⟩
  | cons name rest ih =>
      obtain ⟨next, hstep, hloop⟩ := exceptBind_eq_ok h
      obtain ⟨hchild, hpos⟩ := walkStepIn_of_isName (hnames name List.mem_cons_self) hstep
      obtain ⟨hrest, hpos'⟩ := ih (fun c hc => hnames c (List.mem_cons_of_mem _ hc)) hloop
      refine ⟨?_, by rw [hpos', hpos, List.length_cons]; omega⟩
      rw [descend, hchild]
      exact hrest

theorem walkStepIn_eq_ok_of_childIn (hname : IsName name) (hstack : st.stackPos + 1 < limits.parentStack)
    (h : childIn disk st.current name = .ok inum) :
    walkStepIn limits disk st name =
      .ok ⟨Function.update st.parentStack (st.stackPos + 1) st.current, st.stackPos + 1, inum⟩ := by
  obtain ⟨hmode, hit, hsearch, rfl⟩ := childIn_eq_ok h
  rw [walkStepIn, if_neg hname.1, if_neg hname.2, hmode, hsearch]
  change (if st.stackPos + 1 < limits.parentStack then _ else _) = _
  rw [if_pos hstack]

theorem walkLoopIn_of_descend (hnames : ∀ c ∈ names, IsName c)
    (hstack : st.stackPos + names.length < limits.parentStack) (h : descend disk st.current names = .ok inum) :
    ∃ st', walkLoopIn limits disk names st = .ok st' ∧ st'.current = inum := by
  induction names generalizing st with
  | nil => exact ⟨st, rfl, Except.ok.inj h⟩
  | cons name rest ih =>
      obtain ⟨next, hchild, hrest⟩ := exceptBind_eq_ok h
      simp only [List.length_cons] at hstack
      rw [walkLoopIn, walkStepIn_eq_ok_of_childIn (hnames name List.mem_cons_self) (by omega) hchild]
      exact @ih ⟨_, _, next⟩ (fun c hc => hnames c (List.mem_cons_of_mem _ hc)) (by simp only; omega) hrest

end Names

section Paths

variable {disk : Nat → Block} {limits : Limits} {path : CStr} {inum : Nat} {inode : Inode}

/-- On a path without dots `translate` goes down the names. -/
theorem translateIn_eq_ok (hnames : ∀ c ∈ pathparse path, IsName c)
    (h : translateIn limits disk path = .ok (inum, inode)) :
    descend disk 2 (pathparse path) = .ok inum ∧ inode = inodeAt disk inum := by
  obtain ⟨st, hwalk, hfound⟩ := exceptBind_eq_ok h
  obtain ⟨rfl, rfl⟩ := Prod.mk.inj (Except.ok.inj hfound)
  exact ⟨(walkLoopIn_of_isName hnames hwalk).1, rfl⟩

theorem translateIn_of_descend (hnames : ∀ c ∈ pathparse path, IsName c)
    (hstack : (pathparse path).length < limits.parentStack)
    (h : descend disk 2 (pathparse path) = .ok inum) :
    translateIn limits disk path = .ok (inum, inodeAt disk inum) := by
  obtain ⟨st, hwalk, rfl⟩ : ∃ st, walkLoopIn limits disk (pathparse path) .start = .ok st ∧ st.current = inum :=
    walkLoopIn_of_descend hnames (by simpa [WalkState.start]) h
  rw [translateIn, hwalk]
  rfl

/-- The walk along a parent path goes down all of the resolved names but the last. -/
theorem translateIn_joinPath {names : List CStr} (hnames : ∀ c ∈ names, IsComponent c ∧ IsName c)
    (hlength : names.length ≤ maxPathLen) (h : translateIn limits disk (joinPath names) = .ok (inum, inode)) :
    descend disk 2 names = .ok inum ∧ inode = inodeAt disk inum := by
  have hparse := pathparse_joinPath_of_length_le (fun c hc => (hnames c hc).1) hlength
  have htranslate := translateIn_eq_ok (by rw [hparse]; exact fun c hc => (hnames c hc).2) h
  rwa [hparse] at htranslate

/-- What the resolved components of a path are like. -/
theorem resolved_components (path : CStr) :
    (∀ c ∈ resolvePath (pathparse path), IsComponent c ∧ IsName c) ∧
      (resolvePath (pathparse path)).length ≤ maxPathLen :=
  ⟨fun _ hc => ⟨isComponent_of_mem_pathparse (mem_resolvePath hc).1, (mem_resolvePath hc).2⟩,
    calc (resolvePath (pathparse path)).length ≤ (pathparse path).length := resolvePath_length_le _
      _ ≤ maxPathLen := pathparse_length_le path⟩

theorem lastComponentIn_eq_ok {resolved : List CStr} {name : CStr} (h : lastComponentIn resolved = .ok name) :
    ∃ init, resolved = init ++ [name] := by
  rcases List.eq_nil_or_concat resolved with rfl | ⟨init, final, rfl⟩
  · cases h
  · refine ⟨init, ?_⟩
    simp only [lastComponentIn, List.concat_eq_append, List.getLast?_concat] at h
    rw [List.concat_eq_append, Except.ok.inj h]

theorem eq_joinPath_of_parentPathIn {limits : Limits} {names : List CStr} {parent : CStr}
    (h : parentPathIn limits names = .ok parent) : parent = joinPath names.dropLast := by
  unfold parentPathIn at h
  split at h
  · exact (Except.ok.inj h).symm
  · cases h

theorem parentPathIn_eq_ok {limits : Limits} {init : List CStr} {name parent : CStr}
    (h : parentPathIn limits (init ++ [name]) = .ok parent) : parent = joinPath init := by
  have hparent := eq_joinPath_of_parentPathIn h
  rwa [List.dropLast_concat] at hparent

/-- The parent directory is where the resolved names but the last lead. -/
theorem parentDirIn_eq_ok {name : CStr} (h : parentDirIn limits disk path = .ok (name, inode)) :
    ∃ init dir, resolvePath (pathparse path) = init ++ [name] ∧ descend disk 2 init = .ok dir ∧
      inode = inodeAt disk dir ∧ S_ISDIR inode.mode = true := by
  obtain ⟨last, hlast, hrest⟩ := exceptBind_eq_ok h
  obtain ⟨parent, hparent, hrest⟩ := exceptBind_eq_ok hrest
  obtain ⟨⟨dir, found⟩, hwalk, hfound⟩ := exceptBind_eq_ok hrest
  obtain ⟨hnames, hlength⟩ := resolved_components path
  generalize resolvePath (pathparse path) = resolved at *
  obtain ⟨init, rfl⟩ := lastComponentIn_eq_ok hlast
  obtain rfl := parentPathIn_eq_ok hparent
  rw [List.length_append] at hlength
  obtain ⟨hdescend, rfl⟩ := translateIn_joinPath (fun c hc => hnames c (List.mem_append_left _ hc))
    (by omega) hwalk
  simp only at hfound
  split at hfound
  · cases hfound
  · rename_i hmode
    obtain ⟨rfl, rfl⟩ := Prod.mk.inj (Except.ok.inj hfound)
    exact ⟨init, dir, rfl, hdescend, rfl, by simpa using hmode⟩

/-- Where the resolved names lead somewhere, the parent directory holds the last name. -/
theorem search_of_resolved (hdescend : descend disk 2 (resolvePath (pathparse path)) = .ok inum)
    {name : CStr} {parent : Inode} (hparent : parentDirIn limits disk path = .ok (name, parent)) :
    ∃ hit, searchDirIn (hasName name) parent disk = .ok (some hit) ∧ hit.entry.inode.toNat = inum := by
  obtain ⟨init, dir, hsplit, hinit, rfl, -⟩ := parentDirIn_eq_ok hparent
  rw [hsplit] at hdescend
  obtain ⟨dir', hdir', hchild⟩ := descend_snoc_eq_ok hdescend
  obtain rfl : dir = dir' := Except.ok.inj (hinit.symm.trans hdir')
  obtain ⟨-, hit, hsearch, hinum⟩ := childIn_eq_ok hchild
  exact ⟨hit, hsearch, hinum⟩

/-- A walk that succeeds has found its last name in the parent directory. -/
theorem search_of_translateIn (hpath : Plain path) (h : translateIn limits disk path = .ok (inum, inode))
    {name : CStr} {parent : Inode} (hparent : parentDirIn limits disk path = .ok (name, parent)) :
    ∃ hit, searchDirIn (hasName name) parent disk = .ok (some hit) ∧ hit.entry.inode.toNat = inum := by
  obtain ⟨hdescend, -⟩ := translateIn_eq_ok hpath.names h
  rw [← hpath.resolvePath] at hdescend
  exact search_of_resolved hdescend hparent

end Paths

/-! ### The walk in the tree -/

section Edges

variable {disk : Nat → Block} {dir inum : Nat} {name : CStr} {names : List CStr}

theorem strcmp_eq_true {entry : Dirent} (h : entry.strcmp name = .ok true) :
    entry.storedName = name.bytes := by
  unfold Dirent.strcmp at h
  split at h
  · cases h
  · simpa using h

theorem hasName_eq_true {entry : Dirent} (h : hasName name entry = .ok true) :
    entry.valid = true ∧ entry.storedName = name.bytes := by
  unfold hasName at h
  split at h
  · rename_i hvalid
    exact ⟨hvalid, strcmp_eq_true h⟩
  · cases h

/-- An entry that a search does not find is not valid or stores another name. -/
theorem hasName_eq_false {entry : Dirent} (h : hasName name entry = .ok false) (hvalid : entry.valid = true) :
    entry.storedName ≠ name.bytes := by
  rw [hasName, if_pos hvalid, Dirent.strcmp] at h
  split at h
  · cases h
  · simpa using h

/-- What a search in a directory hits is one of its slots. -/
theorem hit_slot {test : Dirent → Except Stop Bool} {hit : Hit} (hmode : S_ISDIR (inodeAt disk dir).mode = true)
    (h : searchDirIn test (inodeAt disk dir) disk = .ok (some hit)) :
    HasSlot disk dir (hit.index, hit.slot) ∧ direntAt disk dir (hit.index, hit.slot) = hit.entry := by
  obtain ⟨hlt, hblock, -⟩ := searchDirIn_eq_some h
  exact ⟨⟨hmode, hlt⟩, by rw [Hit.entry, hblock]; rfl⟩

/-- A name that is found is an edge. -/
theorem edge_of_search {hit : Hit} (hmode : S_ISDIR (inodeAt disk dir).mode = true)
    (h : searchDirIn (hasName name) (inodeAt disk dir) disk = .ok (some hit)) :
    (tree disk).edge dir (hit.index, hit.slot) = some (name.bytes, hit.entry.inode.toNat) := by
  obtain ⟨-, -, htest⟩ := searchDirIn_eq_some h
  obtain ⟨hvalid, hname⟩ := hasName_eq_true htest
  obtain ⟨hslot, hentry⟩ := hit_slot hmode h
  rw [tree_edge_of_hasSlot hslot, hentry]
  exact Dirent.edge_eq_some.mpr ⟨hvalid, hname, rfl⟩

/-- A name that is not found is no edge. -/
theorem edge_ne_of_search (h : searchDirIn (hasName name) (inodeAt disk dir) disk = .ok none) (slot : Slot)
    (inum : Nat) : (tree disk).edge dir slot ≠ some (name.bytes, inum) := by
  intro hedge
  obtain ⟨hslot, hentry⟩ := tree_edge_eq_some.mp hedge
  obtain ⟨hvalid, hstored, -⟩ := Dirent.edge_eq_some.mp hentry
  exact hasName_eq_false (searchDirIn_eq_none h hslot.2 slot.2) hvalid hstored

theorem reach_of_childIn (hdir : (tree disk).Reach dir) (h : childIn disk dir name = .ok inum) :
    (tree disk).Reach inum := by
  obtain ⟨hmode, hit, hsearch, rfl⟩ := childIn_eq_ok h
  exact hdir.step (edge_of_search hmode hsearch)

theorem leads_of_descend (h : descend disk dir names = .ok inum) :
    (tree disk).Leads dir (labels names) inum := by
  induction names generalizing dir with
  | nil => exact Except.ok.inj h
  | cons name rest ih =>
      obtain ⟨next, hchild, hrest⟩ := exceptBind_eq_ok h
      obtain ⟨hmode, hit, hsearch, rfl⟩ := childIn_eq_ok hchild
      exact ⟨_, _, edge_of_search hmode hsearch, ih hrest⟩

/-- Wherever a walk stands, it came there along entries, and so did everything on its stack. -/
theorem walkLoopIn_reach {limits : Limits} {st st' : WalkState} (hstart : (tree disk).Reach st.current)
    (hstack : ∀ i, (tree disk).Reach (st.parentStack i)) (h : walkLoopIn limits disk names st = .ok st') :
    (tree disk).Reach st'.current := by
  induction names generalizing st with
  | nil =>
      obtain rfl := Except.ok.inj h
      exact hstart
  | cons name rest ih =>
      obtain ⟨next, hstep, hloop⟩ := exceptBind_eq_ok h
      cases walkStep_of_eq_ok hstep with
      | stay => exact ih hstart hstack hloop
      | top => exact ih hstart hstack hloop
      | pop =>
          exact @ih ⟨st.parentStack, st.stackPos - 1, st.parentStack (st.stackPos - 1)⟩ (hstack _) hstack hloop
      | push _ hchild =>
          refine ih (reach_of_childIn hstart hchild) (fun i => ?_) hloop
          by_cases hi : i = st.stackPos + 1
          · rw [hi]
            simpa using hstart
          · simpa only [Function.update_of_ne hi] using hstack i

theorem reach_of_translateIn {limits : Limits} {path : CStr} {inode : Inode}
    (h : translateIn limits disk path = .ok (inum, inode)) :
    (tree disk).Reach inum ∧ inode = inodeAt disk inum := by
  obtain ⟨st, hwalk, hfound⟩ := exceptBind_eq_ok h
  obtain ⟨rfl, rfl⟩ := Prod.mk.inj (Except.ok.inj hfound)
  exact ⟨walkLoopIn_reach .root (fun _ => .root) hwalk, rfl⟩

theorem reach_of_descend (h : descend disk 2 names = .ok inum) : (tree disk).Reach inum :=
  (leads_of_descend h).reach .root

end Edges

end Fs5600
