import Fs5600.Path

/-! `resolve_path` on lists of any length: the laws of the resolved lists, and what becomes of each component. -/

namespace Fs5600

/-! ### The array -/

/-- The array `resolved` and the number of its elements in use, `resolved_index`. -/
structure ResolveState where
  resolved : Nat → CStr
  resolvedIndex : Nat

/-- One turn of the loop, with the array. -/
def ResolveState.step (st : ResolveState) (component : CStr) : ResolveState :=
  if component = dot then st
  else if component = dotdot then
    if 0 < st.resolvedIndex then { st with resolvedIndex := st.resolvedIndex - 1 } else st
  else ⟨Function.update st.resolved st.resolvedIndex component, st.resolvedIndex + 1⟩

/-- The elements in use. -/
def ResolveState.used (st : ResolveState) : List CStr := (List.range st.resolvedIndex).map st.resolved

theorem ResolveState.used_step (st : ResolveState) (component : CStr) :
    (st.step component).used = resolveStep st.used component := by
  unfold step resolveStep
  split_ifs with hdot hdotdot hpos
  · rfl
  · obtain ⟨n, hn⟩ : ∃ n, st.resolvedIndex = n + 1 := ⟨st.resolvedIndex - 1, by omega⟩
    simp only [used, hn, Nat.add_sub_cancel, List.range_succ, List.map_append, List.map_singleton, List.dropLast_concat]
  · have hzero : st.resolvedIndex = 0 := by omega
    rw [used, hzero]
    rfl
  · have hsame : (List.range st.resolvedIndex).map (Function.update st.resolved st.resolvedIndex component) =
        (List.range st.resolvedIndex).map st.resolved := by
      apply List.map_congr_left
      intro i hi
      exact Function.update_of_ne (List.mem_range.mp hi).ne _ _
    simp only [used, List.range_succ, List.map_append, List.map_singleton, Function.update_self, hsame]

/-- The array with its index holds the resolved list, whatever the array held before. -/
theorem used_foldl (array : Nat → CStr) (components : List CStr) :
    (components.foldl ResolveState.step ⟨array, 0⟩).used = resolvePath components := by
  suffices ∀ st : ResolveState, (components.foldl ResolveState.step st).used = components.foldl resolveStep st.used from
    this ⟨array, 0⟩
  induction components with
  | nil => exact fun st => rfl
  | cons component rest ih =>
      intro st
      rw [List.foldl_cons, List.foldl_cons, ih, st.used_step]

/-! ### What becomes of the components -/

/-- Every `..` removes the nearest earlier name that is not yet removed, if there is one: `removes j i` says that the
component at `j` removes the one at `i`. -/
def RemovesNearest (components : List CStr) (removes : Nat → Nat → Prop) : Prop :=
  Cancel.Matching componentAction components removes

/-- The resolved list holds the components at some positions, in order: those of the names that are not removed. -/
def KeepsNames (components resolved : List CStr) (removes : Nat → Nat → Prop) : Prop :=
  ∃ kept : List Nat, kept.Pairwise (· < ·) ∧
    (∀ i, i ∈ kept ↔ (∃ name, components[i]? = some name ∧ IsName name) ∧ ∀ j, ¬removes j i) ∧
    resolved.map some = kept.map fun i => components[i]?

theorem at_push_iff {components : List CStr} {i : Nat} :
    Cancel.At componentAction components i .push ↔ ∃ name, components[i]? = some name ∧ IsName name := by
  rw [Cancel.At, Option.map_eq_some_iff]
  exact exists_congr fun name => and_congr_right fun _ => componentAction_eq_push

structure ResolveLaws : Prop where
  array : ∀ array xs, (xs.foldl ResolveState.step ⟨array, 0⟩).used = resolvePath xs
  names : ∀ xs, ∀ c ∈ resolvePath xs, c ≠ dot ∧ c ≠ dotdot
  append : ∀ xs ys, resolvePath (xs ++ ys) = resolvePath (resolvePath xs ++ ys)
  idempotent : ∀ xs, resolvePath (resolvePath xs) = resolvePath xs
  removes : ∀ xs, ∃! removes, RemovesNearest xs removes
  keeps : ∀ xs removes, RemovesNearest xs removes → KeepsNames xs (resolvePath xs) removes

theorem resolveLaws : ResolveLaws where
  array := used_foldl
  names xs c hc := (mem_resolvePath hc).2
  append := resolvePath_append
  idempotent xs := resolvePath_of_isName fun c hc => (mem_resolvePath hc).2
  removes xs := ⟨_, Cancel.matching_cancels componentAction xs, fun removes h => h.unique (Cancel.matching_cancels _ xs)⟩
  keeps xs removes h := by
    obtain ⟨kept, hsorted, hmem, hmap⟩ := Cancel.run_kept h
    refine ⟨kept, hsorted, fun i => ?_, ?_⟩
    · rw [hmem, at_push_iff]
    · rw [resolvePath_eq_run, hmap]

end Fs5600
