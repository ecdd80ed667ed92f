import Fs5600.RoundTrip

/-! Paths of any length. `pathparse` drops the components past the tenth, and every later step works on what is
left: `fs_unlink` and `fs_rmdir` may remove an object that the whole path does not name. -/

namespace Fs5600

open Ownership Command

/-! ### All components -/

/-- All components of a path: `pathparse` with a place for every byte. -/
def components (path : CStr) : List CStr := pathparseLoop path.bytes.length path

section Components

variable {s token rest : CStr} {left more : Nat}

theorem strtok_length (h : strtok s slash = some (token, rest)) : rest.bytes.length < s.bytes.length := by
  rw [strtok] at h
  split at h
  · cases h
  · rename_i hne
    obtain ⟨-, rfl⟩ := Prod.mk.inj (Option.some.inj h)
    have hdrop : (s.bytes.dropWhile (· == slash)).length ≤ s.bytes.length := (List.dropWhile_sublist _).length_le
    have hpos := List.length_pos_of_ne_nil hne
    have hrest := (List.dropWhile_sublist (l := s.bytes.dropWhile (· == slash)) (· != slash)).length_le
    simp only [List.length_drop]
    omega

/-- Fewer places give the first components. -/
theorem pathparseLoop_take (h : left ≤ more) : pathparseLoop left s = (pathparseLoop more s).take left := by
  induction left generalizing more s with
  | zero => rw [List.take_zero, pathparseLoop]
  | succ left ih =>
      obtain ⟨more, rfl⟩ : ∃ k, more = k + 1 := ⟨more - 1, by omega⟩
      rw [pathparseLoop, pathparseLoop]
      rcases strtok s slash with _ | ⟨token, rest⟩
      · rfl
      · exact congrArg (List.cons token) (ih (by omega))

/-- More places than bytes are not used. -/
theorem pathparseLoop_all (h : s.bytes.length ≤ more) : pathparseLoop more s = components s := by
  suffices ∀ n, ∀ s : CStr, s.bytes.length ≤ n → ∀ more, n ≤ more → pathparseLoop more s = pathparseLoop n s from
    this _ s (Nat.le_refl _) more h
  intro n
  induction n with
  | zero =>
      intro s hs more _
      have hnone : strtok s slash = none := strtok_eq_none (Or.inl (List.length_eq_zero_iff.mp (by omega)))
      cases more with
      | zero => rfl
      | succ more => rw [pathparseLoop, pathparseLoop, hnone]
  | succ n ih =>
      intro s hs more hmore
      obtain ⟨more, rfl⟩ : ∃ k, more = k + 1 := ⟨more - 1, by omega⟩
      rw [pathparseLoop, pathparseLoop]
      rcases htok : strtok s slash with _ | ⟨token, rest⟩
      · rfl
      · have hlength := strtok_length htok
        exact congrArg (List.cons token) (ih rest (by omega) more (by omega))

/-- `pathparse` delivers the first ten components. -/
theorem pathparse_eq_take (path : CStr) : pathparse path = (components path).take maxPathLen := by
  rcases Nat.le_total maxPathLen path.bytes.length with hle | hle
  · exact pathparseLoop_take hle
  · have hall : pathparse path = components path := pathparseLoop_all hle
    rw [← hall, List.take_of_length_le (pathparse_length_le path)]

end Components

/-! ### Paths with single dots -/

/-- The names of a path: its components without the single dots. -/
def withoutDots (components : List CStr) : List CStr := components.filter (· ≠ dot)

section Dots

variable {limits : Limits} {disk : Nat → Block} {names : List CStr} {st : WalkState} {path : CStr}

theorem resolvePath_withoutDots (names : List CStr) : resolvePath names = resolvePath (withoutDots names) := by
  rw [resolvePath_eq_run, resolvePath_eq_run, withoutDots, Cancel.run_filter]
  intro c _ hdot
  rw [componentAction, if_pos (by simpa using hdot)]

theorem walkLoopIn_withoutDots :
    walkLoopIn limits disk names st = walkLoopIn limits disk (withoutDots names) st := by
  induction names generalizing st with
  | nil => rfl
  | cons name rest ih =>
      by_cases hdot : name = dot
      · have hstep : walkStepIn limits disk st name = .ok st := by rw [walkStepIn, if_pos hdot]
        rw [walkLoopIn, hstep, withoutDots, List.filter_cons_of_neg (by simpa using hdot)]
        exact ih
      · rw [withoutDots, List.filter_cons_of_pos (by simpa using hdot), walkLoopIn, walkLoopIn]
        rcases walkStepIn limits disk st name with reason | next
        · simp only [bind, Except.bind]
        · exact ih

theorem isName_of_mem_withoutDots (h : dotdot ∉ names) {c : CStr} (hc : c ∈ withoutDots names) : IsName c := by
  obtain ⟨hmem, hdot⟩ := List.mem_filter.mp hc
  exact ⟨by simpa using hdot, fun heq => h (heq ▸ hmem)⟩

theorem withoutDots_length_le (path : CStr) : (withoutDots (pathparse path)).length ≤ maxPathLen :=
  calc (withoutDots (pathparse path)).length ≤ (pathparse path).length := List.length_filter_le _ _
    _ ≤ maxPathLen := pathparse_length_le path

/-- On a path without double dots `translate` goes down the names, where the stack has room for them. -/
theorem translateIn_of_withoutDots (h : dotdot ∉ pathparse path)
    (hroom : (withoutDots (pathparse path)).length < limits.parentStack) :
    translateIn limits disk path =
      (descend disk 2 (withoutDots (pathparse path))).map fun inum => (inum, inodeAt disk inum) := by
  have hnames := fun c => @isName_of_mem_withoutDots _ h c
  have hstack : WalkState.start.stackPos + (withoutDots (pathparse path)).length < limits.parentStack := by
    simpa [WalkState.start] using hroom
  rw [translateIn, walkLoopIn_withoutDots]
  rcases hdescend : descend disk 2 (withoutDots (pathparse path)) with reason | inum
  · rw [walkLoopIn_error_of_descend hnames hstack hdescend]
    rfl
  · obtain ⟨st, hwalk, rfl⟩ := walkLoopIn_of_descend hnames hstack hdescend
    rw [hwalk]
    rfl

theorem translateIn_eq_descend (h : dotdot ∉ pathparse path) (hstack : maxPathLen < limits.parentStack) :
    translateIn limits disk path =
      (descend disk 2 (withoutDots (pathparse path))).map fun inum => (inum, inodeAt disk inum) :=
  translateIn_of_withoutDots h ((withoutDots_length_le path).trans_lt hstack)

end Dots

/-! ### Names that are stored -/

section Lengths

variable {disk : Nat → Block} {dir inum : Nat} {name : CStr} {names names' : List CStr}

/-- An entry that is found stores a name of at most 27 bytes. -/
theorem length_of_hasName {entry : Dirent} (h : hasName name entry = .ok true) : name.bytes.length < nameLen := by
  have hstored := (hasName_eq_true h).2
  have hle : entry.storedName.length ≤ nameLen :=
    ((List.takeWhile_sublist _).length_le).trans_eq (List.length_ofFn)
  refine lt_of_le_of_ne (hstored ▸ hle) fun heq => ?_
  -- a name that fills its field is compared past the end of the field
  have hall : entry.storedName = List.ofFn entry.name := by
    apply (List.takeWhile_sublist _).eq_of_length
    calc entry.storedName.length = name.bytes.length := by rw [hstored]
      _ = nameLen := heq
      _ = (List.ofFn entry.name).length := List.length_ofFn.symm
  unfold hasName at h
  split at h
  · rw [Dirent.strcmp, if_pos] at h
    · cases h
    · rw [List.take_of_length_le heq.le, ← hstored, hall]
  · cases h

theorem length_of_childIn (h : childIn disk dir name = .ok inum) : name.bytes.length < nameLen := by
  obtain ⟨-, hit, hsearch, -⟩ := childIn_eq_ok h
  exact length_of_hasName (searchDirIn_eq_some hsearch).2.2

theorem length_of_descend (h : descend disk dir names = .ok inum) : ∀ c ∈ names, c.bytes.length < nameLen := by
  induction names generalizing dir with
  | nil => simp
  | cons name rest ih =>
      obtain ⟨next, hchild, hrest⟩ := exceptBind_eq_ok h
      exact List.forall_mem_cons.mpr ⟨length_of_childIn hchild, ih hrest⟩

/-- A lookup that fails on the first names fails on all of them in the same way. -/
theorem descend_append_error {reason : Stop} (h : descend disk dir names = .error reason) :
    descend disk dir (names ++ names') = .error reason := by
  rw [descend_append, h]
  rfl

end Lengths

/-! ### What a call has removed -/

/-- The record only grows. -/
def Extends (m m' : Machine) : Prop := m.trace <+: m'.trace

instance : Std.Refl Extends := ⟨fun _ => List.prefix_rfl⟩

instance : IsTrans Machine Extends := ⟨fun _ _ _ => List.IsPrefix.trans⟩

/-- The record of a call that removes an inode: an entry that leads to it is invalidated, and later its bit
is cleared. -/
def Removes (fs : Fs) (inum : Nat) (trace : List Event) : Prop :=
  ∃ lba slot rest, trace = .blockWrite lba ((fs.disk lba).setDirent slot ((fs.disk lba).dirent slot).invalidate) :: rest ∧
    ((fs.disk lba).dirent slot).valid = true ∧ ((fs.disk lba).dirent slot).inode.toNat = inum ∧ .bitClear inum ∈ rest

section Record

variable {env : Env} {fs : Fs} {α : Type} {m m' : Machine}

/-- A call that only reads delivers what it reads, or an error code. -/
theorem reads_eq_ok {call : Call α} {value : Except Stop α} (h : Reads env fs call value) (hm : m.fs = fs) {a : α}
    (hrun : call env m = (.ok a, m')) : value = .ok a ∧ m'.fs = fs ∧ m'.trace = m.trace := by
  obtain ⟨events, hemits, ⟨hvalue, rfl⟩ | ⟨reason, -, hvalue, -⟩⟩ := h m hm
  · rw [hrun] at hemits hvalue
    exact ⟨hvalue.symm, hemits.view.trans hm, hemits.record.trans (List.append_nil _)⟩
  · rw [hrun] at hvalue
    cases hvalue

theorem blockWrite_eq_ok {lba : Nat} {block : Block} (hrun : blockWrite lba block env m = (.ok (), m')) :
    m'.trace = m.trace ++ [.blockWrite lba block] := by
  obtain ⟨written, middle, htry, hrest⟩ := bind_eq_ok hrun
  unfold tryBlockWrite at htry
  split at htry
  · cases htry
  · split at htry
    · obtain ⟨hwritten, -⟩ := Prod.mk.inj htry
      obtain rfl := Except.ok.inj hwritten
      cases hrest
    · obtain ⟨hwritten, rfl⟩ := Prod.mk.inj htry
      obtain rfl := Except.ok.inj hwritten
      obtain ⟨-, rfl⟩ := Prod.mk.inj hrest
      rfl

theorem bitmapClear_eq_ok {i : Nat} (hrun : bitmapClear i env m = (.ok (), m')) :
    m'.trace = m.trace ++ [.bitClear i] := by
  unfold bitmapClear at hrun
  split at hrun
  · obtain ⟨-, rfl⟩ := Prod.mk.inj hrun
    rfl
  · cases hrun

theorem extends_bitmapClear (i : Nat) : Within Extends (bitmapClear i) := by
  intro env m
  unfold bitmapClear
  split
  · exact List.prefix_append _ _
  · exact List.prefix_rfl

theorem extends_bitmapWrite : Within Extends bitmapWrite := by
  refine Within.bind (fun _ _ => List.prefix_rfl) fun block => Within.bind (fun env m => ?_) fun written => ?_
  · unfold tryBlockWrite
    split
    · exact List.prefix_rfl
    · split
      · exact List.prefix_rfl
      · exact List.prefix_append _ _
  · split
    · exact .pure _
    · exact .stop _

theorem extends_freeLoop (inode : Inode) (left index : Nat) : Within Extends (freeLoop inode left index) := by
  induction left generalizing index with
  | zero => exact .pure _
  | succ left ih =>
      refine (Within.lift _).bind fun ptr => ?_
      split
      · exact (extends_bitmapClear ptr).bind fun _ => ih _
      · exact ih _

/-- The last part of `fs_unlink` and `fs_rmdir`, where it succeeds. -/
theorem removes_of_run {clear : Call Unit} (hclear : Within Extends clear) {parent : Inode} {name : CStr} {hit : Hit}
    (hsearch : searchDirIn (hasName name) parent fs.disk = .ok (some hit)) (hm : m.fs = fs) (htrace : m.trace = [])
    {value : Int} (hrun : (do
      removeEntry parent name
      clear
      bitmapClear hit.entry.inode.toNat
      bitmapWrite
      pure value : Call Int) env m = (.ok value, m')) : Removes fs hit.entry.inode.toNat m'.trace := by
  obtain ⟨⟨⟩, m₁, hremove, hrun⟩ := bind_eq_ok hrun
  obtain ⟨⟨⟩, m₂, hfree, hrun⟩ := bind_eq_ok hrun
  obtain ⟨⟨⟩, m₃, hbit, hrun⟩ := bind_eq_ok hrun
  obtain ⟨⟨⟩, m₄, hbitmap, hrun⟩ := bind_eq_ok hrun
  obtain ⟨found, m₀, hread, hwrite⟩ := bind_eq_ok hremove
  obtain ⟨hfound, hfs₀, htrace₀⟩ := reads_eq_ok reads_searchDir hm hread
  obtain rfl : some hit = found := Except.ok.inj (hsearch.symm.trans hfound)
  obtain ⟨-, hblock, htest⟩ := searchDirIn_eq_some hsearch
  have hfirst := blockWrite_eq_ok hwrite
  have hsecond := hclear env m₁
  have hthird := bitmapClear_eq_ok hbit
  have hfourth := extends_bitmapWrite env m₃
  obtain ⟨-, rfl⟩ := Prod.mk.inj hrun
  rw [hfree] at hsecond
  rw [hbitmap] at hfourth
  obtain ⟨bits, hbits⟩ := hsecond
  obtain ⟨last, hlast⟩ := hfourth
  refine ⟨(parent.ptrs hit.index).toNat, hit.slot, bits ++ [.bitClear hit.entry.inode.toNat] ++ last, ?_, ?_, ?_, by simp⟩
  · rw [← hlast, hthird, ← hbits, hfirst, htrace₀, htrace, Hit.entry, hblock]
    simp
  · rw [← hblock]
    exact (hasName_eq_true htest).1
  · rw [Hit.entry, hblock]

end Record

/-! ### Paths that are used whole -/

/-- The lookup of all components from the root, component by component, where single dots are skipped. -/
def lookup (disk : Nat → Block) (path : CStr) : Except Stop Nat := descend disk 2 (withoutDots (components path))

/-- The call acts on what the whole path names: it removes the inode that the full lookup ends at, and where
the full lookup fails it returns an error and changes nothing. -/
structure ActsOnWhole (env : Env) (fs : Fs) (path : CStr) (op : Op) : Prop where
  success : (op.run env fs).1 = .ok 0 → ∃ inum, lookup fs.disk path = .ok inum ∧ Removes fs inum (op.run env fs).2.trace
  failure : ∀ errno, lookup fs.disk path = .error (.errno errno) →
    (∃ errno', (op.run env fs).1 = .error (.errno errno')) ∧ (op.run env fs).2.fs = fs

/-- Nothing is lost with the components past the tenth: they are single dots, or one of the first ten is too
long for an entry. -/
def Uncut (path : CStr) : Prop :=
  (∀ c ∈ (components path).drop maxPathLen, c = dot) ∨
    ∃ c ∈ (components path).take maxPathLen, c ≠ dot ∧ nameLen ≤ c.bytes.length

section Whole

variable {env : Env} {fs : Fs} {path : CStr} {inum : Nat}

theorem dotdot_notMem_pathparse (h : dotdot ∉ components path) : dotdot ∉ pathparse path := by
  rw [pathparse_eq_take]
  exact fun hmem => h (List.mem_of_mem_take hmem)

/-- The full lookup goes on where `pathparse` stops. -/
theorem lookup_eq (disk : Nat → Block) (path : CStr) : lookup disk path =
    descend disk 2 (withoutDots (pathparse path) ++ withoutDots ((components path).drop maxPathLen)) := by
  calc lookup disk path
      = descend disk 2 (withoutDots ((components path).take maxPathLen ++ (components path).drop maxPathLen)) := by
        rw [lookup, List.take_append_drop]
    _ = descend disk 2 (withoutDots (pathparse path) ++ withoutDots ((components path).drop maxPathLen)) := by
        rw [pathparse_eq_take, withoutDots, List.filter_append, withoutDots, withoutDots]

/-- On an uncut path the names that are left lead where the full lookup leads. -/
theorem Uncut.lookup_eq_ok (h : Uncut path) {disk : Nat → Block}
    (hdescend : descend disk 2 (withoutDots (pathparse path)) = .ok inum) : lookup disk path = .ok inum := by
  rcases h with hdots | ⟨c, hc, hdot, hlong⟩
  · have hnil : withoutDots ((components path).drop maxPathLen) = [] :=
      List.filter_eq_nil_iff.mpr fun c hc => by simpa using hdots c hc
    rw [lookup_eq, hnil, List.append_nil, hdescend]
  · have hmem : c ∈ withoutDots (pathparse path) :=
      List.mem_filter.mpr ⟨by rwa [pathparse_eq_take], by simpa using hdot⟩
    exact absurd (length_of_descend hdescend c hmem) (by omega)

theorem Uncut.descend_eq_error (h : Uncut path) {disk : Nat → Block} {reason : Stop}
    (hlookup : lookup disk path = .error reason) :
    descend disk 2 (withoutDots (pathparse path)) = .error reason := by
  rcases hdescend : descend disk 2 (withoutDots (pathparse path)) with reason' | inum
  · rw [lookup_eq, descend_append_error hdescend] at hlookup
    exact congrArg _ (Except.error.inj hlookup)
  · cases (h.lookup_eq_ok hdescend).symm.trans hlookup

/-- The entry that `fs_unlink` and `fs_rmdir` find in the parent leads to the inode that `translate` found. -/
theorem search_of_withoutDots {disk : Nat → Block} {limits : Limits} (h : dotdot ∉ pathparse path)
    (hdescend : descend disk 2 (withoutDots (pathparse path)) = .ok inum) {name : CStr} {parent : Inode}
    (hparent : parentDirIn limits disk path = .ok (name, parent)) :
    ∃ hit, searchDirIn (hasName name) parent disk = .ok (some hit) ∧ hit.entry.inode.toNat = inum := by
  obtain ⟨init, dir, hsplit, hinit, rfl, -⟩ := parentDirIn_eq_ok hparent
  rw [resolvePath_withoutDots, resolvePath_of_isName fun c => isName_of_mem_withoutDots h] at hsplit
  rw [hsplit] at hdescend
  obtain ⟨dir', hdir', hchild⟩ := descend_snoc_eq_ok hdescend
  obtain rfl : dir = dir' := Except.ok.inj (hinit.symm.trans hdir')
  obtain ⟨-, hit, hsearch, hinum⟩ := childIn_eq_ok hchild
  exact ⟨hit, hsearch, hinum⟩

/-- A call that reads an error returns an error, whichever block accesses fail. -/
theorem fails_of_reads {call : Call Int} {errno : Errno} (h : Reads env fs call (.error (.errno errno))) :
    (∃ errno', (call env (.start fs)).1 = .error (.errno errno')) ∧ (call env (.start fs)).2.fs = fs := by
  refine ⟨?_, fs_of_reads h rfl⟩
  obtain ⟨events, -, ⟨hvalue, -⟩ | ⟨reason, hbreaks, hvalue, -⟩⟩ := h (.start fs) rfl
  · exact ⟨errno, hvalue⟩
  · cases reason with
    | errno errno' => exact ⟨errno', hvalue⟩
    | fault => exact absurd rfl hbreaks.1

/-- What `translate` and `parentDir` delivered to a call that goes on after them. -/
theorem names_of_walk (hdots : dotdot ∉ components path) (hstack : maxPathLen < env.limits.parentStack)
    {inode parent : Inode} {name : CStr} (htranslate : translateIn env.limits fs.disk path = .ok (inum, inode))
    (hparent : parentDirIn env.limits fs.disk path = .ok (name, parent)) :
    descend fs.disk 2 (withoutDots (pathparse path)) = .ok inum ∧
      ∃ hit, searchDirIn (hasName name) parent fs.disk = .ok (some hit) ∧ hit.entry.inode.toNat = inum := by
  have hdots' := dotdot_notMem_pathparse hdots
  rw [translateIn_eq_descend hdots' hstack] at htranslate
  obtain ⟨inum', hdescend, hfound⟩ := exceptBind_eq_ok htranslate
  obtain ⟨rfl, -⟩ := Prod.mk.inj (Except.ok.inj hfound)
  exact ⟨hdescend, search_of_withoutDots hdots' hdescend hparent⟩

theorem removes_of_unlink (hdots : dotdot ∉ components path) (hstack : maxPathLen < env.limits.parentStack)
    (hvalue : (Op.run (.unlink path) env fs).1 = .ok 0) :
    ∃ inum, descend fs.disk 2 (withoutDots (pathparse path)) = .ok inum ∧
      Removes fs inum (Op.run (.unlink path) env fs).2.trace := by
  have hrun : fsUnlink path env (.start fs) = (.ok 0, (Op.run (.unlink path) env fs).2) := Prod.ext hvalue rfl
  unfold fsUnlink at hrun
  obtain ⟨⟨inum, inode⟩, m₁, hwalk, hrun⟩ := bind_eq_ok hrun
  obtain ⟨htranslate, hfs₁, htrace₁⟩ := reads_eq_ok (reads_translate path) rfl hwalk
  dsimp only at hrun
  split at hrun
  · cases hrun
  obtain ⟨⟨name, parent⟩, m₂, hparent, hrun⟩ := bind_eq_ok hrun
  obtain ⟨hparent, hfs₂, htrace₂⟩ := reads_eq_ok (reads_parentDir path) hfs₁ hparent
  obtain ⟨hdescend, hit, hsearch, rfl⟩ := names_of_walk hdots hstack htranslate hparent
  exact ⟨_, hdescend, removes_of_run (extends_freeLoop _ _ _) hsearch hfs₂ (htrace₂.trans htrace₁) hrun⟩

theorem removes_of_rmdir (hdots : dotdot ∉ components path) (hstack : maxPathLen < env.limits.parentStack)
    (hvalue : (Op.run (.rmdir path) env fs).1 = .ok 0) :
    ∃ inum, descend fs.disk 2 (withoutDots (pathparse path)) = .ok inum ∧
      Removes fs inum (Op.run (.rmdir path) env fs).2.trace := by
  have hrun : fsRmdir path env (.start fs) = (.ok 0, (Op.run (.rmdir path) env fs).2) := Prod.ext hvalue rfl
  rw [fsRmdir, rmdirEntry, bind_assoc] at hrun
  obtain ⟨⟨inum, inode⟩, m₁, hcheck, hrun⟩ := bind_eq_ok hrun
  obtain ⟨hcheck, hfs₁, htrace₁⟩ := reads_eq_ok (reads_rmdirCheck path) rfl hcheck
  have htranslate := (rmdirCheckIn_eq_ok hcheck).1
  dsimp only at hrun
  rw [bind_assoc] at hrun
  obtain ⟨⟨name, parent⟩, m₂, hparent, hrun⟩ := bind_eq_ok hrun
  obtain ⟨hparent, hfs₂, htrace₂⟩ := reads_eq_ok (reads_parentDir path) hfs₁ hparent
  obtain ⟨hdescend, hit, hsearch, rfl⟩ := names_of_walk hdots hstack htranslate hparent
  dsimp only at hrun
  rw [bind_assoc] at hrun
  exact ⟨_, hdescend, removes_of_run (extends_bitmapClear _) hsearch hfs₂ (htrace₂.trans htrace₁) hrun⟩

/-- On an uncut path the two requests act on what the whole path names, in every state and whichever block
accesses fail. -/
theorem Uncut.actsOnWhole (h : Uncut path) (hdots : dotdot ∉ components path)
    (hstack : maxPathLen < env.limits.parentStack) :
    ActsOnWhole env fs path (.unlink path) ∧ ActsOnWhole env fs path (.rmdir path) := by
  have hfails : ∀ {errno}, lookup fs.disk path = .error (.errno errno) →
      Reads env fs (translate path) (.error (.errno errno)) := by
    intro errno hlookup
    have htranslate : translateIn env.limits fs.disk path = .error (.errno errno) := by
      rw [translateIn_eq_descend (dotdot_notMem_pathparse hdots) hstack, h.descend_eq_error hlookup]
      rfl
    exact htranslate ▸ reads_translate path
  refine ⟨⟨fun hvalue => ?_, fun errno hlookup => ?_⟩, ⟨fun hvalue => ?_, fun errno hlookup => ?_⟩⟩
  · obtain ⟨inum, hdescend, hremoves⟩ := removes_of_unlink hdots hstack hvalue
    exact ⟨inum, h.lookup_eq_ok hdescend, hremoves⟩
  · exact fails_of_reads (Follows.bind_error (hfails hlookup))
  · obtain ⟨inum, hdescend, hremoves⟩ := removes_of_rmdir hdots hstack hvalue
    exact ⟨inum, h.lookup_eq_ok hdescend, hremoves⟩
  · exact fails_of_reads (Follows.bind_error (Follows.bind_error (Follows.bind_error (hfails hlookup))))

end Whole

end Fs5600
