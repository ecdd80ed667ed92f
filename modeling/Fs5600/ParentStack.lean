import Fs5600.Ascent

/-! The stack of parents in `translate` has `MAX_PATH_LEN` elements, and `pathparse` delivers up to as many
components. The walk pushes one element above the top, from index one on: ten names that lead down the tree
are one too many. -/

namespace Fs5600

open Ownership Command

/-- The index of `parent_stack` that a turn of the loop of `translate` uses: a turn for `..` reads the element
below the top, a turn that finds a name writes the one above it. -/
inductive StackIndex (env : Env) (m : Machine) (st : WalkState) : CStr → Nat → Prop
  | pop (hpos : 0 < st.stackPos) : StackIndex env m st dotdot (st.stackPos - 1)
  | push {name : CStr} {inode : Inode} {hit : Hit} {m' m'' : Machine} (hname : IsName name)
      (hinode : readInode st.current env m = (.ok inode, m')) (hmode : S_ISDIR inode.mode = true)
      (hhit : searchDir (hasName name) inode env m' = (.ok (some hit), m'')) :
      StackIndex env m st name (st.stackPos + 1)

/-- Every index that `translate` uses lies inside the array. -/
def StackSafe (env : Env) (fs : Fs) (path : CStr) : Prop :=
  ∀ walked name rest st m index, pathparse path = walked ++ name :: rest →
    walkLoop walked .start env (.start fs) = (.ok st, m) → StackIndex env m st name index → index < maxPathLen

/-- The first ten components of a path are names that lead down the tree. -/
def TenDeep (fs : Fs) (path : CStr) : Prop :=
  (pathparse path).length = maxPathLen ∧ (∀ c ∈ pathparse path, IsName c) ∧
    ∃ inum, descend fs.disk 2 (pathparse path) = .ok inum

section Stack

variable {env : Env} {fs : Fs} {path : CStr} {names : List CStr}

/-- Only a list without dots is resolved to as many components. -/
theorem isName_of_resolvePath_length (h : (resolvePath names).length = names.length) : ∀ c ∈ names, IsName c := by
  rw [resolvePath_eq_run] at h
  intro c hc
  exact componentAction_eq_push.mp (Cancel.push_of_run_length h c hc)

/-- A quiet call that only reads leaves the file system as it is. -/
theorem run_of_reads {α : Type} {call : Call α} {value : Except Stop α} (h : Reads env fs call value)
    (hquiet : env.Quiet) {m : Machine} (hm : m.fs = fs) : ∃ m', call env m = (value, m') ∧ m'.fs = fs := by
  obtain ⟨hemits, hvalue⟩ := h.complete (fun reason => hquiet.not_breaksOff reason) hm
  exact ⟨(call env m).2, Prod.ext hvalue rfl, hemits.view.trans hm⟩

/-- The tenth name of a path that leads ten names down is pushed outside the array. -/
theorem not_stackSafe_of_tenDeep (hquiet : env.Quiet) (hlimits : Roomy env.limits) (h : TenDeep fs path) :
    ¬StackSafe env fs path := by
  obtain ⟨hlength, hnames, inum, hdescend⟩ := h
  rcases (pathparse path).eq_nil_or_concat with hnil | ⟨init, name, hsplit⟩
  · rw [hnil] at hlength
    cases hlength
  rw [List.concat_eq_append] at hsplit
  rw [hsplit, List.length_append, List.length_singleton] at hlength
  rw [hsplit] at hdescend hnames
  have hinit : ∀ c ∈ init, IsName c := fun c hc => hnames c (List.mem_append_left _ hc)
  have hroom := hlimits.stack
  obtain ⟨dir, hdir, hchild⟩ := descend_snoc_eq_ok hdescend
  obtain ⟨st, hwalk, rfl⟩ : ∃ st, walkLoopIn env.limits fs.disk init .start = .ok st ∧ st.current = dir :=
    walkLoopIn_of_descend hinit (by simp only [WalkState.start]; omega) hdir
  have hpos : st.stackPos = 0 + init.length := (walkLoopIn_of_isName hinit hwalk).2
  obtain ⟨m, hrun, hm⟩ := run_of_reads (hwalk ▸ reads_walkLoop init .start) hquiet (m := .start fs) rfl
  obtain ⟨m', hinode, hm'⟩ := run_of_reads (reads_readInode st.current) hquiet hm
  obtain ⟨hmode, hit, hsearch, -⟩ := childIn_eq_ok hchild
  obtain ⟨m'', hhit, -⟩ := run_of_reads (hsearch ▸ reads_searchDir) hquiet hm'
  intro hsafe
  have hindex := hsafe init name [] st m _ hsplit hrun
    (.push (hnames name (List.mem_append_right _ List.mem_cons_self)) hinode hmode hhit)
  omega

/-- Any other walk stays inside the array. -/
theorem stackSafe_of_not_tenDeep (h : ¬TenDeep fs path) : StackSafe env fs path := by
  intro walked name rest st m index hsplit hrun hindex
  obtain ⟨hwalk, hm, -⟩ := reads_eq_ok (reads_walkLoop walked .start) rfl hrun
  have htracks : Tracks (resolvePath walked) st := tracks_start.walk hwalk
  have hdepth := htracks.depth
  have hbound := resolvePath_length_le walked
  have hlength := pathparse_length_le path
  rw [hsplit, List.length_append, List.length_cons] at hlength
  cases hindex with
  | pop hpos => omega
  | @push _ inode hit m' m'' hname hinode hmode hhit =>
      by_contra hge
      -- the stack is as high as the walk is long only where the walk met ten names
      have hnil : rest = [] := List.length_eq_zero_iff.mp (by omega)
      subst hnil
      have hwalked := isName_of_resolvePath_length (show (resolvePath walked).length = walked.length by omega)
      obtain ⟨hread, hm', -⟩ := reads_eq_ok (reads_readInode st.current) hm hinode
      obtain ⟨hsearch, -, -⟩ := reads_eq_ok reads_searchDir hm' hhit
      obtain rfl := Except.ok.inj hread
      refine h ⟨?_, ?_, hit.entry.inode.toNat, ?_⟩
      · rw [hsplit, List.length_append, List.length_singleton]
        simp only [List.length_nil] at hlength
        omega
      · rw [hsplit]
        intro c hc
        rcases List.mem_append.mp hc with hc | hc
        · exact hwalked c hc
        · exact List.mem_singleton.mp hc ▸ hname
      · have hdown : descend fs.disk 2 walked = .ok st.current := (walkLoopIn_of_isName hwalked hwalk).1
        rw [hsplit, descend_append, hdown]
        exact descend_singleton.trans (childIn_of_search hmode hsearch)

/-- `translate` stays inside its stack exactly where a path does not lead down ten names, whichever block reads
fail. -/
theorem stackSafe_iff (fs : Fs) (path : CStr) :
    (∀ env, env.limits = .declared → StackSafe env fs path) ↔ ¬TenDeep fs path := by
  refine ⟨fun hsafe hdeep => ?_, fun hnot env _ => stackSafe_of_not_tenDeep hnot⟩
  exact not_stackSafe_of_tenDeep (quiet_quietEnv 0) (roomy_quietEnv 0) hdeep (hsafe _ rfl)

end Stack

/-- Ten names, each in the directory of the one before, lead past the end of the array. -/
theorem stackSafe_false : ¬∀ env fs path, env.limits = .declared → Mounted fs → StackSafe env fs path := by
  intro h
  have hparse : pathparse (joinPath (List.replicate 10 nameD)) = List.replicate 10 nameD :=
    pathparse_joinPath (by decide)
  refine not_stackSafe_of_tenDeep (quiet_quietEnv 0) (roomy_quietEnv 0) ?_ (h (quietEnv 0)
    (chainImage (List.replicate 10 nameD)) (joinPath (List.replicate 10 nameD)) rfl
    (mounted_of_disk (by decide) (by decide) rfl))
  refine ⟨by rw [hparse]; rfl, by rw [hparse]; decide, 22, ?_⟩
  rw [hparse]
  exact @descend_chain_root (List.replicate 10 nameD) (by decide) (by decide)

end Fs5600
