import Mathlib

/-! The first element of a list that passes a test, where the test itself may fail. -/

namespace Search

variable {ε α : Type}

/-- The first element that passes; the search fails where a test fails before it. -/
def findFirst (test : α → Except ε Bool) : List α → Except ε (Option α)
  | [] => .ok none
  | a :: rest =>
      match test a with
      | .error reason => .error reason
      | .ok true => .ok (some a)
      | .ok false => findFirst test rest

variable {test : α → Except ε Bool}

theorem findFirst_eq_none {list : List α} :
    findFirst test list = .ok none ↔ ∀ a ∈ list, test a = .ok false := by
  induction list with
  | nil => simp [findFirst]
  | cons a rest ih =>
      unfold findFirst
      rcases htest : test a with reason | (_ | _)
      · simp [htest]
      · simp only [ih, List.mem_cons, forall_eq_or_imp, htest, true_and]
      · simp [htest]

/-- What a successful search found, and that nothing before it passed. -/
theorem findFirst_eq_some {list : List α} {a : α} :
    findFirst test list = .ok (some a) ↔
      ∃ before after, list = before ++ a :: after ∧ test a = .ok true ∧
        ∀ b ∈ before, test b = .ok false := by
  induction list with
  | nil => simp [findFirst]
  | cons head rest ih =>
      unfold findFirst
      rcases htest : test head with reason | (_ | _)
      · apply iff_of_false (by simp)
        rintro ⟨before, after, hlist, ha, hbefore⟩
        rcases before with _ | ⟨b, before⟩
        · obtain ⟨rfl, -⟩ := List.cons.inj hlist
          simp [htest] at ha
        · obtain ⟨rfl, -⟩ := List.cons.inj hlist
          simp [htest] at hbefore
      · simp only [ih]
        constructor
        · rintro ⟨before, after, rfl, ha, hbefore⟩
          exact ⟨head :: before, after, rfl, ha, by simpa [htest] using hbefore⟩
        · rintro ⟨before, after, hlist, ha, hbefore⟩
          rcases before with _ | ⟨b, before⟩
          · obtain ⟨rfl, -⟩ := List.cons.inj hlist
            simp [htest] at ha
          · obtain ⟨rfl, hrest⟩ := List.cons.inj hlist
            exact ⟨before, after, hrest, ha, fun b hb => hbefore b (List.mem_cons_of_mem _ hb)⟩
      · constructor
        · intro h
          have hhead : head = a := by simpa using h
          exact ⟨[], rest, by rw [hhead]; rfl, hhead ▸ htest, by simp⟩
        · rintro ⟨before, after, hlist, ha, hbefore⟩
          rcases before with _ | ⟨b, before⟩
          · obtain ⟨rfl, -⟩ := List.cons.inj hlist
            rfl
          · obtain ⟨rfl, -⟩ := List.cons.inj hlist
            have := hbefore head List.mem_cons_self
            simp [htest] at this

/-- A search whose tests do not fail finds an element that passes, if there is one. -/
theorem findFirst_ok {list : List α} (h : ∀ a ∈ list, ∃ passed, test a = .ok passed) :
    ∃ found, findFirst test list = .ok found := by
  induction list with
  | nil => exact ⟨none, rfl⟩
  | cons a rest ih =>
      obtain ⟨passed, hpassed⟩ := h a List.mem_cons_self
      rw [findFirst, hpassed]
      cases passed with
      | true => exact ⟨some a, rfl⟩
      | false => exact ih fun b hb => h b (List.mem_cons_of_mem _ hb)

end Search
