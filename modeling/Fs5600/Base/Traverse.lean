import Mathlib

/-! Walking down from a node with a bounded depth: what a visit of a node delivers, then what the visits of its
children deliver. -/

namespace Traverse

variable {N A E : Type}

/-- The walk. A visit delivers some output and the children to go to, and `deep` is the error beyond the depth. -/
def walk (visit : N → Except E (List A × List N)) (deep : E) : Nat → N → Except E (List A)
  | 0, _ => .error deep
  | depth + 1, n => do
      let found ← visit n
      let below ← found.2.mapM (walk visit deep depth)
      .ok (found.1 ++ below.flatten)

/-- The walk from a node visits another one. -/
inductive Visits (visit : N → Except E (List A × List N)) : N → N → Prop
  | here (n : N) : Visits visit n n
  | next {n m k : N} {found : List A × List N} (hvisit : visit n = .ok found) (hmem : m ∈ found.2)
      (h : Visits visit m k) : Visits visit n k

/-- Every visit from a node on succeeds, and no way down is longer than the depth. -/
inductive Ends (visit : N → Except E (List A × List N)) : Nat → N → Prop
  | intro {depth : Nat} {n : N} {found : List A × List N} (hvisit : visit n = .ok found)
      (h : ∀ m ∈ found.2, Ends visit depth m) : Ends visit (depth + 1) n

variable {visit : N → Except E (List A × List N)} {deep : E} {depth : Nat} {n m k : N}

theorem exceptBind_ok {B C : Type} (b : B) (next : B → Except E C) : ((.ok b : Except E B) >>= next) = next b := rfl

theorem exists_bind_ok {B C : Type} {x : Except E B} {g : B → C} (h : ∃ b, x = .ok b) :
    ∃ c, (x >>= fun b => .ok (g b)) = .ok c := by
  obtain ⟨b, rfl⟩ := h
  exact ⟨g b, rfl⟩

theorem mapM_eq_ok {B : Type} {f : N → Except E B} {ns : List N} {bs : List B} (h : ns.mapM f = .ok bs) :
    (∀ n ∈ ns, ∃ b ∈ bs, f n = .ok b) ∧ ∀ b ∈ bs, ∃ n ∈ ns, f n = .ok b := by
  induction ns generalizing bs with
  | nil =>
      obtain rfl : [] = bs := Except.ok.inj h
      simp
  | cons n ns ih =>
      rw [List.mapM_cons] at h
      rcases hn : f n with e | b
      · rw [hn] at h
        cases h
      · rw [hn] at h
        rcases hns : ns.mapM f with e | bs'
        · rw [hns] at h
          cases h
        · rw [hns] at h
          obtain rfl : b :: bs' = bs := Except.ok.inj h
          obtain ⟨hall, hback⟩ := ih hns
          refine ⟨fun a ha => ?_, fun c hc => ?_⟩
          · rcases List.mem_cons.mp ha with rfl | ha
            · exact ⟨b, List.mem_cons_self, hn⟩
            · obtain ⟨c, hc, hfc⟩ := hall a ha
              exact ⟨c, List.mem_cons_of_mem _ hc, hfc⟩
          · rcases List.mem_cons.mp hc with rfl | hc
            · exact ⟨n, List.mem_cons_self, hn⟩
            · obtain ⟨a, ha, hfa⟩ := hback c hc
              exact ⟨a, List.mem_cons_of_mem _ ha, hfa⟩

theorem mapM_ok {B : Type} {f : N → Except E B} {ns : List N} (h : ∀ n ∈ ns, ∃ b, f n = .ok b) :
    ∃ bs, ns.mapM f = .ok bs := by
  induction ns with
  | nil => exact ⟨[], rfl⟩
  | cons n ns ih =>
      obtain ⟨b, hb⟩ := h n List.mem_cons_self
      obtain ⟨bs, hbs⟩ := ih fun a ha => h a (List.mem_cons_of_mem _ ha)
      exact ⟨b :: bs, by rw [List.mapM_cons, hb, hbs]; rfl⟩

/-- Results one by one. -/
theorem mapM_of_forall₂ {B : Type} {f : N → Except E B} {ns : List N} {bs : List B}
    (h : List.Forall₂ (fun n b => f n = .ok b) ns bs) : ns.mapM f = .ok bs := by
  induction h with
  | nil => rfl
  | cons hfirst _ ih =>
      rw [List.mapM_cons, hfirst, ih]
      rfl

theorem mapM_map_ok {B C : Type} {f : N → Except E B} {g : C → N} {k : C → B} {l : List C}
    (h : ∀ a ∈ l, f (g a) = .ok (k a)) : (l.map g).mapM f = .ok (l.map k) :=
  mapM_of_forall₂ (List.forall₂_map_left_iff.mpr (List.forall₂_map_right_iff.mpr (List.forall₂_same.mpr h)))

/-- Where the results are known, they stand in the order of the list. -/
theorem eq_map_of_mapM {B : Type} {f : N → Except E B} {g : N → B} {ns : List N} {bs : List B} (h : ns.mapM f = .ok bs)
    (hfg : ∀ n b, f n = .ok b → b = g n) : bs = ns.map g := by
  induction ns generalizing bs with
  | nil => exact (Except.ok.inj h).symm
  | cons n ns ih =>
      rw [List.mapM_cons] at h
      rcases hn : f n with e | b
      · rw [hn] at h
        cases h
      · rw [hn] at h
        rcases hns : ns.mapM f with e | bs'
        · rw [hns] at h
          cases h
        · rw [hns] at h
          obtain rfl : b :: bs' = bs := Except.ok.inj h
          rw [List.map_cons, hfg n b hn, ih hns]

theorem walk_succ_eq_ok {out : List A} (h : walk visit deep (depth + 1) n = .ok out) :
    ∃ found below, visit n = .ok found ∧ found.2.mapM (walk visit deep depth) = .ok below ∧
      out = found.1 ++ below.flatten := by
  unfold walk at h
  rcases hvisit : visit n with e | found
  · rw [hvisit] at h
    cases h
  · rw [hvisit] at h
    rcases hbelow : found.2.mapM (walk visit deep depth) with e | below
    · simp only [bind, Except.bind, hbelow] at h
      cases h
    · simp only [bind, Except.bind, hbelow] at h
      exact ⟨found, below, rfl, hbelow, (Except.ok.inj h).symm⟩

/-- The walk succeeds exactly where every visit does and the depth is enough. -/
theorem walk_ok_iff_ends : (∃ out, walk visit deep depth n = .ok out) ↔ Ends visit depth n := by
  induction depth generalizing n with
  | zero =>
      constructor
      · rintro ⟨out, hout⟩
        cases hout
      · intro hends
        cases hends
  | succ depth ih =>
      constructor
      · rintro ⟨out, hout⟩
        obtain ⟨found, below, hvisit, hbelow, -⟩ := walk_succ_eq_ok hout
        refine .intro hvisit fun m hm => ih.mp ?_
        obtain ⟨b, -, hb⟩ := (mapM_eq_ok hbelow).1 m hm
        exact ⟨b, hb⟩
      · intro hends
        cases hends with
        | @intro _ _ found hvisit h =>
            obtain ⟨below, hbelow⟩ := mapM_ok fun m hm => ih.mpr (h m hm)
            exact ⟨found.1 ++ below.flatten, by simp only [walk, hvisit, bind, Except.bind, hbelow]⟩

theorem Visits.trans (h : Visits visit n m) (h' : Visits visit m k) : Visits visit n k := by
  induction h with
  | here n => exact h'
  | next hvisit hmem _ ih => exact .next hvisit hmem (ih h')

/-- Every node that is visited is visited with success. -/
theorem Ends.visit_ok (h : Ends visit depth n) (hvisits : Visits visit n m) : ∃ found, visit m = .ok found := by
  induction hvisits generalizing depth with
  | here n =>
      cases h with
      | intro hvisit _ => exact ⟨_, hvisit⟩
  | next hvisit hmem _ ih =>
      cases h with
      | intro hvisit' hbelow =>
          obtain rfl := Except.ok.inj (hvisit.symm.trans hvisit')
          exact ih (hbelow _ hmem)

/-- A walk that succeeds delivers what the visits deliver, and nothing else. -/
theorem mem_walk_iff {out : List A} (h : walk visit deep depth n = .ok out) {a : A} :
    a ∈ out ↔ ∃ m found, Visits visit n m ∧ visit m = .ok found ∧ a ∈ found.1 := by
  induction depth generalizing n out with
  | zero => cases h
  | succ depth ih =>
      obtain ⟨found, below, hvisit, hbelow, rfl⟩ := walk_succ_eq_ok h
      obtain ⟨hall, hback⟩ := mapM_eq_ok hbelow
      rw [List.mem_append, List.mem_flatten]
      constructor
      · rintro (ha | ⟨part, hpart, ha⟩)
        · exact ⟨n, found, .here n, hvisit, ha⟩
        · obtain ⟨m, hm, hwalk⟩ := hback part hpart
          obtain ⟨k, found', hk, hvisit', ha'⟩ := (ih hwalk).mp ha
          exact ⟨k, found', .next hvisit hm hk, hvisit', ha'⟩
      · rintro ⟨k, found', hk, hvisit', ha⟩
        cases hk with
        | here n =>
            obtain rfl := Except.ok.inj (hvisit.symm.trans hvisit')
            exact Or.inl ha
        | next hvisit'' hmem hk =>
            obtain rfl := Except.ok.inj (hvisit.symm.trans hvisit'')
            obtain ⟨part, hpart, hwalk⟩ := hall _ hmem
            exact Or.inr ⟨part, hpart, (ih hwalk).mpr ⟨k, found', hk, hvisit', ha⟩⟩

end Traverse
