import Mathlib

/-! Lists whose elements push themselves on a stack, pop it, or leave it alone. What is left at the end is said a second
time, without the stack: every pop cancels the nearest push before it that is still there. -/

namespace Cancel

inductive Action
  | skip | push | pop
  deriving DecidableEq

variable {α : Type} {action : α → Action}

/-- One element. A pop of the empty stack does nothing. -/
def step (action : α → Action) (stack : List α) (a : α) : List α :=
  match action a with
  | .skip => stack
  | .push => stack ++ [a]
  | .pop => stack.dropLast

def run (action : α → Action) (xs : List α) : List α := xs.foldl (step action) []

theorem mem_step {stack : List α} {a b : α} (h : b ∈ step action stack a) : b ∈ stack ∨ (b = a ∧ action b = .push) := by
  unfold step at h
  split at h
  · exact Or.inl h
  · rename_i hpush
    rcases List.mem_append.mp h with h | h
    · exact Or.inl h
    · obtain rfl := List.mem_singleton.mp h
      exact Or.inr ⟨rfl, hpush⟩
  · exact Or.inl (List.mem_of_mem_dropLast h)

theorem run_concat (xs : List α) (a : α) : run action (xs ++ [a]) = step action (run action xs) a := List.foldl_append

theorem mem_run {xs : List α} {b : α} (h : b ∈ run action xs) : b ∈ xs ∧ action b = .push := by
  induction xs using List.reverseRecOn with
  | nil => cases h
  | append_singleton xs a ih =>
      rw [run_concat] at h
      rcases mem_step h with h | ⟨rfl, hpush⟩
      · exact ⟨List.mem_append_left _ (ih h).1, (ih h).2⟩
      · exact ⟨List.mem_append_right _ (List.mem_singleton_self b), hpush⟩

theorem foldl_of_push {xs : List α} (h : ∀ a ∈ xs, action a = .push) (stack : List α) :
    xs.foldl (step action) stack = stack ++ xs := by
  induction xs generalizing stack with
  | nil => exact (List.append_nil stack).symm
  | cons a xs ih =>
      have hstep : step action stack a = stack ++ [a] := by
        unfold step
        rw [h a List.mem_cons_self]
      calc (a :: xs).foldl (step action) stack = xs.foldl (step action) (stack ++ [a]) := by rw [List.foldl_cons, hstep]
        _ = stack ++ [a] ++ xs := ih (fun b hb => h b (List.mem_cons_of_mem _ hb)) _
        _ = stack ++ a :: xs := by rw [List.append_assoc, List.singleton_append]

/-- A list of pushes stays. -/
theorem run_of_push {xs : List α} (h : ∀ a ∈ xs, action a = .push) : run action xs = xs := foldl_of_push h []

@[simp] theorem run_run (xs : List α) : run action (run action xs) = run action xs :=
  run_of_push fun _ ha => (mem_run ha).2

/-- A first part of the list can be replaced by what it leaves. -/
theorem run_append (xs ys : List α) : run action (xs ++ ys) = run action (run action xs ++ ys) := by
  have hfirst : (run action xs).foldl (step action) [] = xs.foldl (step action) [] := run_run xs
  calc run action (xs ++ ys) = ys.foldl (step action) (xs.foldl (step action) []) := List.foldl_append
    _ = ys.foldl (step action) ((run action xs).foldl (step action) []) := by rw [hfirst]
    _ = run action (run action xs ++ ys) := List.foldl_append.symm

/-- Elements that leave the stack alone can be left out. -/
theorem run_filter {xs : List α} {keep : α → Bool} (h : ∀ a ∈ xs, keep a = false → action a = .skip) :
    run action (xs.filter keep) = run action xs := by
  induction xs using List.reverseRecOn with
  | nil => rfl
  | append_singleton xs a ih =>
      have hinit := ih fun b hb => h b (List.mem_append_left _ hb)
      rw [List.filter_append, run_concat, ← hinit]
      cases hkeep : keep a with
      | true => rw [List.filter_cons_of_pos hkeep, List.filter_nil, run_concat]
      | false =>
          have hskip := h a (List.mem_append_right _ (List.mem_singleton_self a)) hkeep
          rw [List.filter_cons_of_neg (by simp [hkeep]), List.filter_nil, List.append_nil, step, hskip]

/-! ### The height of the stack -/

/-- Only a push makes the stack higher. -/
theorem length_step (stack : List α) (a : α) :
    (step action stack a).length ≤ stack.length ∨
      (action a = .push ∧ (step action stack a).length = stack.length + 1) := by
  unfold step
  split
  · exact Or.inl (Nat.le_refl _)
  · rename_i hpush
    exact Or.inr ⟨hpush, by rw [List.length_append, List.length_singleton]⟩
  · rw [List.length_dropLast]
    exact Or.inl (Nat.sub_le _ _)

theorem run_length_le (xs : List α) : (run action xs).length ≤ xs.length := by
  induction xs using List.reverseRecOn with
  | nil => exact Nat.le_refl 0
  | append_singleton xs a ih =>
      rw [run_concat, List.length_append, List.length_singleton]
      rcases @length_step α action (run action xs) a with hle | ⟨-, heq⟩
      · omega
      · omega

/-- The stack is as high as the list is long only where all elements are pushes. -/
theorem push_of_run_length {xs : List α} (h : (run action xs).length = xs.length) : ∀ a ∈ xs, action a = .push := by
  induction xs using List.reverseRecOn with
  | nil => simp
  | append_singleton xs a ih =>
      have hinit := @run_length_le α action xs
      rw [run_concat, List.length_append, List.length_singleton] at h
      rcases @length_step α action (run action xs) a with hle | ⟨hpush, heq⟩
      · omega
      · intro b hb
        rcases List.mem_append.mp hb with hb | hb
        · exact ih (by omega) b hb
        · exact List.mem_singleton.mp hb ▸ hpush

/-! ### Pushes and the pops that cancel them -/

/-- The element at a position and what it does. -/
def At (action : α → Action) (xs : List α) (i : Nat) (act : Action) : Prop := (xs[i]?).map action = some act

/-- The push at `i` stands before `j`, and no element before `j` cancels it. -/
def Left (action : α → Action) (xs : List α) (cancels : Nat → Nat → Prop) (i j : Nat) : Prop :=
  i < j ∧ At action xs i .push ∧ ∀ k < j, ¬cancels k i

/-- Every pop cancels the nearest push before it that is left, and nothing else cancels. -/
def Matching (action : α → Action) (xs : List α) (cancels : Nat → Nat → Prop) : Prop :=
  ∀ j i, cancels j i ↔
    At action xs j .pop ∧ Left action xs cancels i j ∧ ∀ i', Left action xs cancels i' j → i' ≤ i

section Matching

variable {xs : List α} {cancels cancels' : Nat → Nat → Prop}

theorem At.lt {i : Nat} {act : Action} (h : At action xs i act) : i < xs.length := by
  by_contra hge
  rw [At, List.getElem?_eq_none (not_lt.mp hge)] at h
  cases h

theorem Matching.unique (h : Matching action xs cancels) (h' : Matching action xs cancels') : cancels = cancels' := by
  suffices ∀ j i, cancels j i ↔ cancels' j i from funext fun j => funext fun i => propext (this j i)
  intro j
  induction j using Nat.strong_induction_on with
  | h j ih =>
      have hleft : ∀ i, Left action xs cancels i j ↔ Left action xs cancels' i j := by
        intro i
        unfold Left
        exact and_congr_right fun _ => and_congr_right fun _ => forall₂_congr fun k hk => not_congr (ih k hk i)
      intro i
      rw [h j i, h' j i]
      simp only [hleft]

end Matching

/-- The positions of the elements on the stack, after the first elements. -/
def positions (action : α → Action) (xs : List α) : Nat → List Nat
  | 0 => []
  | k + 1 =>
      match (xs[k]?).map action with
      | some .push => positions action xs k ++ [k]
      | some .pop => (positions action xs k).dropLast
      | _ => positions action xs k

section Positions

variable {xs : List α}

theorem lt_of_mem_positions {i k : Nat} (h : i ∈ positions action xs k) : i < k := by
  induction k with
  | zero => cases h
  | succ k ih =>
      unfold positions at h
      split at h
      · rcases List.mem_append.mp h with h | h
        · exact Nat.lt_succ_of_lt (ih h)
        · exact Nat.lt_succ_of_le (List.mem_singleton.mp h).le
      · exact Nat.lt_succ_of_lt (ih (List.mem_of_mem_dropLast h))
      · exact Nat.lt_succ_of_lt (ih h)

theorem pairwise_positions (k : Nat) : (positions action xs k).Pairwise (· < ·) := by
  induction k with
  | zero => exact List.Pairwise.nil
  | succ k ih =>
      unfold positions
      split
      · apply List.pairwise_append.mpr
        refine ⟨ih, List.pairwise_singleton _ _, fun i hi j hj => ?_⟩
        exact (List.mem_singleton.mp hj) ▸ lt_of_mem_positions hi
      · exact ih.sublist (List.dropLast_sublist _)
      · exact ih

/-- The last element of an increasing list is the largest one. -/
theorem getLast?_eq_some_iff {l : List Nat} (h : l.Pairwise (· < ·)) {i : Nat} :
    l.getLast? = some i ↔ i ∈ l ∧ ∀ i' ∈ l, i' ≤ i := by
  rcases List.eq_nil_or_concat l with rfl | ⟨init, last, rfl⟩
  · simp
  · rw [List.concat_eq_append] at h ⊢
    have hlast : ∀ i' ∈ init ++ [last], i' ≤ last := by
      intro i' hi'
      rcases List.mem_append.mp hi' with hi' | hi'
      · exact ((List.pairwise_append.mp h).2.2 i' hi' last (List.mem_singleton_self last)).le
      · exact (List.mem_singleton.mp hi').le
    rw [List.getLast?_concat, Option.some.injEq]
    constructor
    · rintro rfl
      exact ⟨List.mem_append_right _ (List.mem_singleton_self _), hlast⟩
    · rintro ⟨hmem, hmax⟩
      exact le_antisymm (hmax last (List.mem_append_right _ (List.mem_singleton_self last))) (hlast i hmem)

theorem mem_dropLast_iff {l : List Nat} (h : l.Pairwise (· < ·)) {i : Nat} :
    i ∈ l.dropLast ↔ i ∈ l ∧ l.getLast? ≠ some i := by
  rcases List.eq_nil_or_concat l with rfl | ⟨init, last, rfl⟩
  · simp
  · rw [List.concat_eq_append] at h ⊢
    rw [List.dropLast_concat, List.getLast?_concat, List.mem_append, List.mem_singleton, ne_eq, Option.some.injEq]
    have hlast : ∀ i' ∈ init, i' < last := fun i' hi' =>
      (List.pairwise_append.mp h).2.2 i' hi' last (List.mem_singleton_self last)
    constructor
    · intro hi
      exact ⟨Or.inl hi, fun heq => absurd (hlast i hi) (heq ▸ Nat.lt_irrefl _)⟩
    · rintro ⟨hi | rfl, hne⟩
      · exact hi
      · exact absurd rfl hne

/-- The pop at `j` cancels what is on top of the stack. -/
def Cancels (action : α → Action) (xs : List α) (j i : Nat) : Prop :=
  At action xs j .pop ∧ (positions action xs j).getLast? = some i

theorem mem_positions {i j : Nat} : i ∈ positions action xs j ↔ Left action xs (Cancels action xs) i j := by
  induction j with
  | zero => exact iff_of_false List.not_mem_nil fun h => Nat.not_lt_zero _ h.1
  | succ j ih =>
      have hsplit : Left action xs (Cancels action xs) i (j + 1) ↔
          (Left action xs (Cancels action xs) i j ∨ (i = j ∧ At action xs j .push)) ∧ ¬Cancels action xs j i := by
        constructor
        · rintro ⟨hlt, hpush, hnone⟩
          refine ⟨?_, hnone j (Nat.lt_succ_self j)⟩
          rcases Nat.lt_succ_iff_lt_or_eq.mp hlt with hlt | rfl
          · exact Or.inl ⟨hlt, hpush, fun k hk => hnone k (Nat.lt_succ_of_lt hk)⟩
          · exact Or.inr ⟨rfl, hpush⟩
        · rintro ⟨⟨hlt, hpush, hnone⟩ | ⟨rfl, hpush⟩, hnot⟩
          · refine ⟨Nat.lt_succ_of_lt hlt, hpush, fun k hk => ?_⟩
            rcases Nat.lt_succ_iff_lt_or_eq.mp hk with hk | rfl
            · exact hnone k hk
            · exact hnot
          · refine ⟨Nat.lt_succ_self i, hpush, fun k hk hcancels => ?_⟩
            -- what is on the stack stands before the pop
            have hmem := List.mem_of_getLast? hcancels.2
            exact absurd (lt_of_mem_positions hmem) (not_lt.mpr (Nat.le_of_lt_succ hk))
      rw [hsplit, ← ih]
      rcases hact : (xs[j]?).map action with _ | act
      · have hpush : ¬At action xs j .push := fun h => by cases hact.symm.trans h
        have hpop : ¬Cancels action xs j i := fun h => by cases hact.symm.trans h.1
        simp only [positions, hact, hpush, hpop, and_false, or_false, not_false_eq_true, and_true]
      · cases act with
        | skip =>
            have hpush : ¬At action xs j .push := fun h => by cases hact.symm.trans h
            have hpop : ¬Cancels action xs j i := fun h => by cases hact.symm.trans h.1
            simp only [positions, hact, hpush, hpop, and_false, or_false, not_false_eq_true, and_true]
        | push =>
            have hpush : At action xs j .push := hact
            have hpop : ¬Cancels action xs j i := fun h => by cases hact.symm.trans h.1
            simp only [positions, hact, hpush, hpop, List.mem_append, List.mem_singleton, and_true, not_false_eq_true]
        | pop =>
            have hpush : ¬At action xs j .push := fun h => by cases hact.symm.trans h
            have hpop : Cancels action xs j i ↔ (positions action xs j).getLast? = some i := and_iff_right hact
            simp only [positions, hact, hpush, hpop, and_false, or_false]
            exact mem_dropLast_iff (pairwise_positions j)

theorem matching_cancels (action : α → Action) (xs : List α) : Matching action xs (Cancels action xs) := by
  intro j i
  refine and_congr_right fun _ => ?_
  rw [getLast?_eq_some_iff (pairwise_positions j), mem_positions]
  exact and_congr_right fun _ => forall_congr' fun i' => by rw [mem_positions]

/-- The stack holds the elements at its positions. -/
theorem map_positions (k : Nat) (hk : k ≤ xs.length) :
    (run action (xs.take k)).map some = (positions action xs k).map fun i => xs[i]? := by
  induction k with
  | zero => rfl
  | succ k ih =>
      have hlt : k < xs.length := hk
      have hrest := ih hlt.le
      have hget : xs[k]? = some xs[k] := List.getElem?_eq_getElem hlt
      unfold run at hrest ⊢
      rw [List.take_succ_eq_append_getElem hlt, List.foldl_append, List.foldl_cons, List.foldl_nil, step]
      unfold positions
      rw [hget, Option.map_some]
      cases action xs[k] with
      | skip => exact hrest
      | push =>
          dsimp only
          rw [List.map_append, List.map_append, hrest, List.map_singleton, List.map_singleton, hget]
      | pop =>
          dsimp only
          rw [List.map_dropLast, List.map_dropLast, hrest]

end Positions

/-- What is left at the end are the pushes that no pop cancels, in their order. -/
theorem run_kept {xs : List α} {cancels : Nat → Nat → Prop} (h : Matching action xs cancels) :
    ∃ kept : List Nat, kept.Pairwise (· < ·) ∧ (∀ i, i ∈ kept ↔ At action xs i .push ∧ ∀ j, ¬cancels j i) ∧
      (run action xs).map some = kept.map fun i => xs[i]? := by
  obtain rfl := h.unique (matching_cancels action xs)
  refine ⟨positions action xs xs.length, pairwise_positions _, fun i => ?_, ?_⟩
  · rw [mem_positions]
    constructor
    · rintro ⟨-, hpush, hnone⟩
      exact ⟨hpush, fun j hcancels => hnone j hcancels.1.lt hcancels⟩
    · rintro ⟨hpush, hnone⟩
      exact ⟨hpush.lt, hpush, fun j _ => hnone j⟩
  · have hall := @map_positions _ action xs xs.length (Nat.le_refl _)
    rwa [List.take_length] at hall

end Cancel
