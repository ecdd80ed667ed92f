import Fs5600.WholePath

/-! What `translate` looks up. A path stands for the names between its slashes, and a name for the first valid
entry that stores it, in the order of blocks and slots; `translate` follows the names one by one from inode 2. -/

namespace Fs5600

open Ownership Command Search

/-! ### The names of a path -/

/-- What stands between the slashes of a path. -/
def pieces (path : CStr) : List (List UInt8) := (path.bytes.splitOn slash).filter (· ≠ [])

section Pieces

variable {s : CStr} {left : Nat}

theorem pieces_slashes {slashes rest : List UInt8} (h : ∀ b ∈ slashes, b = slash) :
    ((slashes ++ rest).splitOn slash).filter (· ≠ []) = (rest.splitOn slash).filter (· ≠ []) := by
  induction slashes with
  | nil => rfl
  | cons b slashes ih =>
      obtain ⟨rfl, hrest⟩ := List.forall_mem_cons.mp h
      have hsplit := List.splitOn_append_cons_self (a := slash) [] (slashes ++ rest)
      rw [List.nil_append] at hsplit
      rw [List.cons_append, hsplit, List.splitOn_nil, List.singleton_append,
        List.filter_cons_of_neg (by simp), ih hrest]

/-- What `strtok` leaves behind: slashes, the token, and after it nothing or a slash and the rest. -/
theorem strtok_eq_some {token rest : CStr} (h : strtok s slash = some (token, rest)) :
    ∃ slashes, (∀ b ∈ slashes, b = slash) ∧
      ((s.bytes = slashes ++ token.bytes ∧ rest.bytes = []) ∨ s.bytes = slashes ++ (token.bytes ++ slash :: rest.bytes)) := by
  simp only [strtok] at h
  split at h
  · cases h
  obtain ⟨rfl, rfl⟩ := Prod.mk.inj (Option.some.inj h)
  refine ⟨s.bytes.takeWhile (· == slash), fun b hb => by simpa using List.mem_takeWhile_imp hb, ?_⟩
  dsimp only
  have hsplit : s.bytes = s.bytes.takeWhile (· == slash) ++ s.bytes.dropWhile (· == slash) :=
    List.takeWhile_append_dropWhile.symm
  generalize s.bytes.takeWhile (· == slash) = slashes at hsplit ⊢
  generalize s.bytes.dropWhile (· == slash) = behind at hsplit ⊢
  have htoken : behind = behind.takeWhile (· != slash) ++ behind.dropWhile (· != slash) :=
    List.takeWhile_append_dropWhile.symm
  rcases htail : behind.dropWhile (· != slash) with _ | ⟨b, tail⟩
  · rw [htail, List.append_nil] at htoken
    exact Or.inl ⟨hsplit.trans (congrArg _ htoken), rfl⟩
  · have hb : b = slash := by
      have hhead := List.head_dropWhile_not (· != slash) (l := behind) (by rw [htail]; simp)
      simpa [htail] using hhead
    rw [htail, hb] at htoken
    exact Or.inr (hsplit.trans (congrArg _ htoken))

/-- `strtok` splits off the first piece. -/
theorem pieces_strtok {token rest : CStr} (h : strtok s slash = some (token, rest)) :
    pieces s = token.bytes :: pieces rest := by
  obtain ⟨hne, hfree⟩ := isComponent_of_strtok h
  obtain ⟨slashes, hslashes, ⟨hs, hrest⟩ | hs⟩ := strtok_eq_some h
  · rw [pieces, hs, pieces_slashes hslashes, List.splitOn_eq_singleton hfree,
      List.filter_cons_of_pos (by simpa using hne), pieces, hrest]
    rfl
  · rw [pieces, hs, pieces_slashes hslashes, List.splitOn_append_cons_self_of_not_mem hfree,
      List.filter_cons_of_pos (by simpa using hne), pieces]

theorem pieces_strtok_none (h : strtok s slash = none) : pieces s = [] := by
  simp only [strtok] at h
  split at h
  · rename_i hnil
    have hslashes : ∀ b ∈ s.bytes, b = slash := by simpa using List.dropWhile_eq_nil_iff.mp hnil
    have hall := @pieces_slashes s.bytes [] hslashes
    rw [List.append_nil] at hall
    rw [pieces, hall]
    rfl
  · cases h

/-- `pathparse` delivers the pieces, as many as there are places for. -/
theorem map_pathparseLoop (left : Nat) (s : CStr) : (pathparseLoop left s).map CStr.bytes = (pieces s).take left := by
  induction left generalizing s with
  | zero => rw [List.take_zero, pathparseLoop, List.map_nil]
  | succ left ih =>
      unfold pathparseLoop
      rcases htok : strtok s slash with _ | ⟨token, rest⟩
      · rw [pieces_strtok_none htok]
        rfl
      · rw [pieces_strtok htok, List.take_succ_cons, ← ih rest]
        rfl

theorem map_pathparse (path : CStr) : (pathparse path).map CStr.bytes = (pieces path).take maxPathLen :=
  map_pathparseLoop _ _

end Pieces

/-! ### First entries -/

/-- One slot of a directory comes before another: in an earlier block, or earlier in the same block. -/
def Before (slot slot' : Slot) : Prop := slot.1 < slot'.1 ∨ slot.1 = slot'.1 ∧ slot.2 < slot'.2

theorem before_trichotomy (slot slot' : Slot) : Before slot slot' ∨ slot = slot' ∨ Before slot' slot := by
  obtain ⟨i, s⟩ := slot
  obtain ⟨i', s'⟩ := slot'
  rcases lt_trichotomy i i' with hi | rfl | hi
  · exact Or.inl (Or.inl hi)
  · rcases lt_trichotomy s s' with hs | rfl | hs
    · exact Or.inl (Or.inr ⟨rfl, hs⟩)
    · exact Or.inr (Or.inl rfl)
    · exact Or.inr (Or.inr (Or.inr ⟨rfl, hs⟩))
  · exact Or.inr (Or.inr (Or.inl hi))

/-- The slot of the first valid entry of a name in a directory, and the inode number it stores. -/
structure FirstEntry (disk : Nat → Block) (dir : Nat) (name : List UInt8) (slot : Slot) (inum : Nat) : Prop where
  edge : (tree disk).edge dir slot = some (name, inum)
  first : ∀ slot', Before slot' slot → ∀ m, (tree disk).edge dir slot' ≠ some (name, m)

/-- Following names one by one from an inode: where they lead, or the error of the first step that cannot be
made. -/
inductive Follow (disk : Nat → Block) : Nat → List (List UInt8) → Except Errno Nat → Prop
  | here (n : Nat) : Follow disk n [] (.ok n)
  | step {n m : Nat} {name : List UInt8} {rest : List (List UInt8)} {slot : Slot} {result : Except Errno Nat}
      (hentry : FirstEntry disk n name slot m) (hrest : Follow disk m rest result) :
      Follow disk n (name :: rest) result
  | notDir {n : Nat} {name : List UInt8} {rest : List (List UInt8)}
      (hmode : S_ISDIR (inodeAt disk n).mode = false) : Follow disk n (name :: rest) (.error .ENOTDIR)
  | missing {n : Nat} {name : List UInt8} {rest : List (List UInt8)}
      (hmode : S_ISDIR (inodeAt disk n).mode = true)
      (hnone : ∀ slot m, (tree disk).edge n slot ≠ some (name, m)) : Follow disk n (name :: rest) (.error .ENOENT)

/-- The directories in a tree can be searched: none has more blocks than an inode has pointers, and the names in
them end inside their fields. -/
structure FormedDirs (disk : Nat → Block) : Prop where
  blocks : ∀ n, (tree disk).Reach n → S_ISDIR (inodeAt disk n).mode = true → (inodeAt disk n).dirBlocks ≤ numPtrs
  terminated : Terminated disk

theorem WellNamed.formedDirs {disk : Nat → Block} (h : WellNamed disk) : FormedDirs disk :=
  ⟨fun _ hn _ => h.dirBlocks_le hn, h.terminated⟩

section Search

variable {disk : Nat → Block} {test : Dirent → Except Stop Bool} {inode : Inode} {hit : Hit} {dir : Nat}
  {name : CStr}

/-- The slots of a block before the one that was found do not pass the test. -/
theorem searchSlots_first {block : Block} {slot : Fin direntsPerBlock}
    (h : searchSlots test block = .ok (some slot)) {s : Fin direntsPerBlock} (hs : s < slot) :
    test (block.dirent s) = .ok false := by
  obtain ⟨before, after, hlist, -, hbefore⟩ := findFirst_eq_some.mp h
  have hsorted := List.pairwise_lt_finRange direntsPerBlock
  rw [hlist, List.pairwise_append] at hsorted
  have hmem : s ∈ before ++ slot :: after := hlist ▸ List.mem_finRange s
  rcases List.mem_append.mp hmem with hmem | hmem
  · exact hbefore s hmem
  · rcases List.mem_cons.mp hmem with rfl | hmem
    · exact absurd hs (lt_irrefl _)
    · exact absurd ((List.pairwise_cons.mp hsorted.2.1).1 s hmem) hs.asymm

/-- A search hits the first slot that passes the test. -/
theorem searchLoopIn_first {left index : Nat} (h : searchLoopIn test inode disk left index = .ok (some hit))
    {i : Fin numPtrs} {s : Fin direntsPerBlock} (hi : index ≤ i.val) (hbefore : Before (i, s) (hit.index, hit.slot)) :
    test ((disk (inode.ptrs i).toNat).dirent s) = .ok false := by
  induction left generalizing index with
  | zero => cases h
  | succ left ih =>
      unfold searchLoopIn at h
      split at h
      · rename_i hindex
        rcases hslots : searchSlots test (disk (inode.ptrs ⟨index, hindex⟩).toNat) with reason | (_ | slot)
        · rw [hslots] at h
          cases h
        · rw [hslots] at h
          rcases Nat.eq_or_lt_of_le hi with heq | hlt
          · obtain rfl : i = ⟨index, hindex⟩ := Fin.ext heq.symm
            exact searchSlots_eq_none hslots s
          · exact ih h hlt
        · rw [hslots] at h
          obtain rfl := Option.some.inj (Except.ok.inj h)
          rcases hbefore with hlt | ⟨heq, hlt⟩
          · exact absurd (show i.val < index from hlt) (by omega)
          · obtain rfl : i = ⟨index, hindex⟩ := heq
            exact searchSlots_first hslots hlt
      · cases h

/-- What a search for a name hits is its first entry. -/
theorem firstEntry_of_search (hmode : S_ISDIR (inodeAt disk dir).mode = true)
    (h : searchDirIn (hasName name) (inodeAt disk dir) disk = .ok (some hit)) :
    FirstEntry disk dir name.bytes (hit.index, hit.slot) hit.entry.inode.toNat := by
  refine ⟨edge_of_search hmode h, fun slot hbefore m hedge => ?_⟩
  obtain ⟨-, hentry⟩ := tree_edge_eq_some.mp hedge
  obtain ⟨hvalid, hstored, -⟩ := Dirent.edge_eq_some.mp hentry
  exact hasName_eq_false (searchLoopIn_first h (Nat.zero_le _) hbefore) hvalid hstored

theorem FirstEntry.unique {n n' : Nat} {label : List UInt8} {slot slot' : Slot} (h : FirstEntry disk dir label slot n)
    (h' : FirstEntry disk dir label slot' n') : n = n' := by
  rcases before_trichotomy slot slot' with hbefore | rfl | hbefore
  · exact absurd h.edge (h'.first slot hbefore n)
  · simpa using h.edge.symm.trans h'.edge
  · exact absurd h'.edge (h.first slot' hbefore n')

theorem FormedDirs.search_ok (h : FormedDirs disk) (hdir : (tree disk).Reach dir)
    (hmode : S_ISDIR (inodeAt disk dir).mode = true) (name : CStr) :
    ∃ found, searchDirIn (hasName name) (inodeAt disk dir) disk = .ok found := by
  refine searchLoopIn_ok (by have := h.blocks dir hdir hmode; omega) fun i _ hi s => ?_
  have hslot : HasSlot disk dir (i, s) := ⟨hmode, show i.val < _ by omega⟩
  unfold hasName
  split
  · exact ⟨_, strcmp_of_length (h.terminated.length_lt hdir hslot ‹_›) name⟩
  · exact ⟨_, rfl⟩

/-! ### Going down -/

/-- Going down a list of names is following them. -/
theorem FormedDirs.follow (h : FormedDirs disk) {names : List CStr} (hdir : (tree disk).Reach dir) :
    ∃ result : Except Errno Nat, Follow disk dir (labels names) result ∧
      descend disk dir names = result.mapError Stop.errno := by
  induction names generalizing dir with
  | nil => exact ⟨.ok dir, .here dir, rfl⟩
  | cons name rest ih =>
      cases hmode : S_ISDIR (inodeAt disk dir).mode with
      | false =>
          refine ⟨_, .notDir hmode, ?_⟩
          rw [descend, childIn, hmode]
          rfl
      | true =>
          obtain ⟨_ | hit, hsearch⟩ := h.search_ok hdir hmode name
          · refine ⟨_, .missing hmode (edge_ne_of_search hsearch), ?_⟩
            rw [descend, childIn, hmode, hsearch]
            rfl
          · have hchild := childIn_of_search hmode hsearch
            obtain ⟨result, hfollow, hdescend⟩ := ih (reach_of_childIn hdir hchild)
            refine ⟨result, .step (firstEntry_of_search hmode hsearch) hfollow, ?_⟩
            rw [descend, hchild]
            exact hdescend

theorem Follow.unique {names : List (List UInt8)} {result result' : Except Errno Nat} (h : Follow disk dir names result)
    (h' : Follow disk dir names result') : result = result' := by
  induction h with
  | here n =>
      cases h'
      rfl
  | step hentry hrest ih =>
      cases h' with
      | step hentry' hrest' =>
          obtain rfl := hentry.unique hentry'
          exact ih hrest'
      | notDir hmode' =>
          have hmode := (tree_edge_eq_some.mp hentry.edge).1.1
          rw [hmode'] at hmode
          cases hmode
      | missing _ hnone => exact absurd hentry.edge (hnone _ _)
  | notDir hmode =>
      cases h' with
      | step hentry' hrest' =>
          have hmode' := (tree_edge_eq_some.mp hentry'.edge).1.1
          rw [hmode] at hmode'
          cases hmode'
      | notDir hmode' => rfl
      | missing hmode' _ =>
          rw [hmode] at hmode'
          cases hmode'
  | missing hmode hnone =>
      cases h' with
      | step hentry' hrest' => exact absurd hentry'.edge (hnone _ _)
      | notDir hmode' =>
          rw [hmode] at hmode'
          cases hmode'
      | missing _ _ => rfl

theorem FormedDirs.descend_eq_iff (h : FormedDirs disk) {names : List CStr} (hdir : (tree disk).Reach dir)
    {result : Except Errno Nat} :
    descend disk dir names = result.mapError Stop.errno ↔ Follow disk dir (labels names) result := by
  obtain ⟨result', hfollow, hdescend⟩ : ∃ result' : Except Errno Nat, Follow disk dir (labels names) result' ∧
      descend disk dir names = result'.mapError Stop.errno := h.follow hdir
  rw [hdescend]
  constructor
  · intro heq
    obtain rfl : result' = result := by
      cases result' <;> cases result <;> simp_all [Except.mapError]
    exact hfollow
  · intro hfollow'
    rw [hfollow.unique hfollow']

end Search

/-! ### `translate` -/

/-- What the pieces of a path name: all but the single dots. -/
def namesOf (path : CStr) : List (List UInt8) := (pieces path).filter (· ≠ dot.bytes)

/-- `translate` succeeds with an inode number exactly where following the names leads there, and fails with the
error of the first step that cannot be made. -/
structure FollowsNames (env : Env) (fs : Fs) (path : CStr) : Prop where
  found : ∀ inum, (∃ inode, (translate path env (.start fs)).1 = .ok (inum, inode)) ↔
    Follow fs.disk 2 (namesOf path) (.ok inum)
  notDir : (translate path env (.start fs)).1 = .error (.errno .ENOTDIR) ↔
    Follow fs.disk 2 (namesOf path) (.error .ENOTDIR)
  missing : (translate path env (.start fs)).1 = .error (.errno .ENOENT) ↔
    Follow fs.disk 2 (namesOf path) (.error .ENOENT)

section Translate

variable {env : Env} {fs : Fs} {path : CStr} {disk : Nat → Block} {limits : Limits}

theorem map_pathparse_of_short (hshort : (pieces path).length < maxPathLen) :
    (pathparse path).map CStr.bytes = pieces path := by
  rw [map_pathparse, List.take_of_length_le hshort.le]

theorem labels_withoutDots (hshort : (pieces path).length < maxPathLen) :
    labels (withoutDots (pathparse path)) = namesOf path := by
  rw [namesOf, ← map_pathparse_of_short hshort, List.filter_map, withoutDots]
  refine congrArg (List.map CStr.bytes) (List.filter_congr fun c _ => ?_)
  simp [CStr.ext_iff]

theorem exceptMap_inj {ε α β : Type} {f : α → β} (hf : f.Injective) {value value' : Except ε α}
    (h : value.map f = value'.map f) : value = value' := by
  cases value <;> cases value' <;> simp_all [Except.map, hf.eq_iff]

/-- The walk of `translate` ends as following the names does. -/
theorem translateIn_eq_iff (hformed : FormedDirs disk) (hroom : maxPathLen ≤ limits.parentStack)
    (hshort : (pieces path).length < maxPathLen) (hdots : dotdot.bytes ∉ pieces path) {result : Except Errno Nat} :
    translateIn limits disk path = (result.mapError Stop.errno).map (fun inum => (inum, inodeAt disk inum)) ↔
      Follow disk 2 (namesOf path) result := by
  have hmap := map_pathparse_of_short hshort
  have hdots' : dotdot ∉ pathparse path := fun hmem => hdots (hmap ▸ List.mem_map_of_mem hmem)
  have hlength : (pathparse path).length = (pieces path).length := by rw [← hmap, List.length_map]
  have hfilter : (withoutDots (pathparse path)).length ≤ (pathparse path).length := List.length_filter_le _ _
  have hfollow : descend disk 2 (withoutDots (pathparse path)) = result.mapError Stop.errno ↔
      Follow disk 2 (labels (withoutDots (pathparse path))) result := hformed.descend_eq_iff .root
  rw [translateIn_of_withoutDots hdots' (by omega), ← labels_withoutDots hshort, ← hfollow]
  refine ⟨fun heq => exceptMap_inj (fun _ _ hpair => (Prod.mk.inj hpair).1) heq, fun heq => ?_⟩
  rw [heq]

end Translate

/-- On a path of at most nine components, none of them `..`, `translate` follows the names of the path. -/
theorem translate_follows {env : Env} {fs : Fs} {path : CStr} (hquiet : env.Quiet) (hlimits : Roomy env.limits)
    (hformed : FormedDirs fs.disk) (hshort : (pieces path).length < maxPathLen) (hdots : dotdot.bytes ∉ pieces path) :
    FollowsNames env fs path := by
  have hiff : ∀ {result : Except Errno Nat}, _ ↔ Follow fs.disk 2 (namesOf path) result :=
    translateIn_eq_iff hformed hlimits.stack hshort hdots
  refine ⟨fun inum => ?_, ?_, ?_⟩
  · rw [← hiff, translate_value hquiet]
    constructor
    · rintro ⟨inode, hfound⟩
      obtain ⟨-, rfl⟩ := reach_of_translateIn hfound
      exact hfound
    · exact fun hfound => ⟨_, hfound⟩
  · rw [← hiff, translate_value hquiet]
    rfl
  · rw [← hiff, translate_value hquiet]
    rfl

/-- The path `//./f/` of the sample. -/
theorem translate_follows_sampleImage : FollowsNames (quietEnv 0) sampleImage ⟨[47, 47, 46, 47, 102, 47], by decide⟩ :=
  translate_follows (quiet_quietEnv 0) (roomy_quietEnv 0) wellFormed_sampleImage.formedDirs (by decide) (by decide)

end Fs5600
