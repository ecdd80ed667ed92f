import Mathlib

/-! Rooted graphs whose nodes own cells. Every edge and every cell names an object, and so does the
root: these are the uses of an object. The graph is exclusive where no object is used twice. An exclusive
graph is a tree, with the cells as leaves, and the local changes of it (adding a leaf, removing an edge,
changing the cells of one node) keep it one. -/

namespace Ownership

variable {N S L I : Type}

/-- Objects `N`, edges in the slots `S` of a node with labels `L`, and cells with indices `I`. -/
structure Graph (N S L I : Type) where
  root : N
  edge : N → S → Option (L × N)
  cell : N → I → Option N

/-- A place that names an object. -/
inductive Use (N S I : Type)
  | root
  | edge (n : N) (s : S)
  | cell (n : N) (i : I)

namespace Graph

variable (G : Graph N S L I)

/-- The nodes that edges lead to from the root. -/
inductive Reach : N → Prop
  | root : Reach G.root
  | step {n : N} {s : S} {l : L} {m : N} : Reach n → G.edge n s = some (l, m) → Reach m

/-- Which object a place of the reachable part names. -/
inductive Uses : Use N S I → N → Prop
  | root : Uses .root G.root
  | edge {n : N} {s : S} {l : L} {m : N} : G.Reach n → G.edge n s = some (l, m) → Uses (.edge n s) m
  | cell {n : N} {i : I} {b : N} : G.Reach n → G.cell n i = some b → Uses (.cell n i) b

/-- Some place names the object. -/
def InUse (b : N) : Prop := ∃ use, G.Uses use b

/-- No object is used twice. -/
def Exclusive : Prop := ∀ use use' b, G.Uses use b → G.Uses use' b → use = use'

/-- No node has two edges with one label. -/
def UniqueLabels : Prop :=
  ∀ n s s' l m m', G.Reach n → G.edge n s = some (l, m) → G.edge n s' = some (l, m') → s = s'

/-- A list of labels leads from one node to another. -/
def Leads : N → List L → N → Prop
  | n, [], m => n = m
  | n, l :: ls, m => ∃ s k, G.edge n s = some (l, k) ∧ Leads k ls m

variable {G}

theorem uses_root_iff {b : N} : G.Uses .root b ↔ b = G.root :=
  ⟨fun h => by cases h; rfl, fun h => h ▸ .root⟩

theorem uses_edge_iff {n : N} {s : S} {b : N} :
    G.Uses (.edge n s) b ↔ G.Reach n ∧ ∃ l, G.edge n s = some (l, b) :=
  ⟨fun h => by cases h with | edge hn he => exact ⟨hn, _, he⟩, fun ⟨hn, _, he⟩ => .edge hn he⟩

theorem uses_cell_iff {n : N} {i : I} {b : N} :
    G.Uses (.cell n i) b ↔ G.Reach n ∧ G.cell n i = some b :=
  ⟨fun h => by cases h with | cell hn hc => exact ⟨hn, hc⟩, fun ⟨hn, hc⟩ => .cell hn hc⟩

theorem Reach.inUse {n : N} (h : G.Reach n) : G.InUse n := by
  cases h with
  | root => exact ⟨_, .root⟩
  | step hn he => exact ⟨_, .edge hn he⟩

theorem Uses.inUse {use : Use N S I} {b : N} (h : G.Uses use b) : G.InUse b := ⟨use, h⟩

/-- A reachable node is no cell. -/
theorem Exclusive.cell_ne_node (hex : G.Exclusive) {n m : N} {i : I} {b : N} (hn : G.Reach n)
    (hcell : G.cell n i = some b) (hm : G.Reach m) : b ≠ m := by
  rintro rfl
  cases hm with
  | root => cases hex _ _ _ (.cell hn hcell) .root
  | step hk he => cases hex _ _ _ (.cell hn hcell) (.edge hk he)

/-! ### Following labels -/

theorem leads_append {n : N} {ls ls' : List L} {m : N} :
    G.Leads n (ls ++ ls') m ↔ ∃ k, G.Leads n ls k ∧ G.Leads k ls' m := by
  induction ls generalizing n with
  | nil => simp [Leads]
  | cons l ls ih =>
      simp only [List.cons_append, Leads, ih]
      constructor
      · rintro ⟨s, k, he, k', hk, hk'⟩
        exact ⟨k', ⟨s, k, he, hk⟩, hk'⟩
      · rintro ⟨k', ⟨s, k, he, hk⟩, hk'⟩
        exact ⟨s, k, he, k', hk, hk'⟩

theorem leads_snoc {n : N} {ls : List L} {l : L} {m : N} :
    G.Leads n (ls ++ [l]) m ↔ ∃ k s, G.Leads n ls k ∧ G.edge k s = some (l, m) := by
  simp only [leads_append, Leads]
  constructor
  · rintro ⟨k, hk, s, m', he, rfl⟩
    exact ⟨k, s, hk, he⟩
  · rintro ⟨k, s, hk, he⟩
    exact ⟨k, hk, s, m, he, rfl⟩

theorem Leads.reach {n : N} {ls : List L} {m : N} (h : G.Leads n ls m) (hn : G.Reach n) : G.Reach m := by
  induction ls generalizing n with
  | nil => exact h ▸ hn
  | cons l ls ih =>
      obtain ⟨s, k, he, hk⟩ := h
      exact ih hk (hn.step he)

/-- With unique labels a list of labels leads to one node only. -/
theorem UniqueLabels.leads_unique (huniq : G.UniqueLabels) {n : N} {ls : List L} {m m' : N}
    (hn : G.Reach n) (h : G.Leads n ls m) (h' : G.Leads n ls m') : m = m' := by
  induction ls generalizing n with
  | nil => exact h.symm.trans h'
  | cons l ls ih =>
      obtain ⟨s, k, he, hk⟩ := h
      obtain ⟨s', k', he', hk'⟩ := h'
      obtain rfl := huniq _ _ _ _ _ _ hn he he'
      obtain rfl : k = k' := by simpa using he.symm.trans he'
      exact ih (hn.step he) hk hk'

/-- In an exclusive graph two lists of labels lead to two nodes. -/
theorem Exclusive.leads_injective (hex : G.Exclusive) {ls ls' : List L} {m : N}
    (h : G.Leads G.root ls m) (h' : G.Leads G.root ls' m) : ls = ls' := by
  induction ls using List.reverseRecOn generalizing ls' m with
  | nil =>
      obtain rfl : G.root = m := h
      rcases ls'.eq_nil_or_concat with rfl | ⟨ls', l', rfl⟩
      · rfl
      · rw [List.concat_eq_append, leads_snoc] at h'
        obtain ⟨k, s, hk, he⟩ := h'
        cases hex _ _ _ .root (.edge (hk.reach .root) he)
  | append_singleton ls l ih =>
      obtain ⟨k, s, hk, he⟩ := leads_snoc.mp h
      rcases ls'.eq_nil_or_concat with rfl | ⟨ls', l', rfl⟩
      · obtain rfl : G.root = m := h'
        cases hex _ _ _ .root (.edge (hk.reach .root) he)
      · rw [List.concat_eq_append] at h' ⊢
        obtain ⟨k', s', hk', he'⟩ := leads_snoc.mp h'
        cases hex _ _ _ (.edge (hk.reach .root) he) (.edge (hk'.reach .root) he')
        rw [he] at he'
        simp only [Option.some.injEq, Prod.mk.injEq, and_true] at he'
        rw [ih hk hk', he']

/-- A list of labels that leads to a node does not depend on the edges of that node. -/
theorem Exclusive.leads_iff_of_edge {G' : Graph N S L I} (hex : G.Exclusive) (hroot : G'.root = G.root) {p : N}
    (hedge : ∀ n, G.Reach n → n ≠ p → G'.edge n = G.edge n) {ls : List L} (hp : G.Leads G.root ls p) {m : N} :
    G'.Leads G'.root ls m ↔ G.Leads G.root ls m := by
  have hprefix : ∀ init rest, ls = init ++ rest → (G'.Leads G'.root init m ↔ G.Leads G.root init m) := by
    intro init
    induction init using List.reverseRecOn generalizing m with
    | nil => exact fun _ _ => by simp [Leads, hroot]
    | append_singleton init l ih =>
        intro rest hls
        -- the node in front of the last label is another one
        have hne : ∀ k, G.Leads G.root init k → k ≠ p := by
          rintro k hk rfl
          have heq := congrArg List.length ((hex.leads_injective hk hp).trans hls)
          simp only [List.length_append, List.length_singleton] at heq
          omega
        rw [leads_snoc, leads_snoc]
        refine exists_congr fun k => exists_congr fun s => ?_
        rw [ih ([l] ++ rest) (by rw [hls, List.append_assoc])]
        exact and_congr_right fun hk => by rw [hedge k (hk.reach .root) (hne k hk)]
  exact hprefix ls [] (List.append_nil ls).symm

/-! ### Changes outside the reachable part -/

/-- The two graphs agree on what is reachable in the first. -/
structure Agrees (G G' : Graph N S L I) : Prop where
  root : G'.root = G.root
  edge : ∀ n, G.Reach n → G'.edge n = G.edge n
  cell : ∀ n, G.Reach n → G'.cell n = G.cell n

namespace Agrees

variable {G' : Graph N S L I} (h : G.Agrees G')

include h

theorem reach_iff {n : N} : G'.Reach n ↔ G.Reach n := by
  constructor
  · intro hn
    induction hn with
    | root => exact h.root ▸ .root
    | step _ he ih => exact ih.step (by rwa [h.edge _ ih] at he)
  · intro hn
    induction hn with
    | root => exact h.root ▸ .root
    | step hn he ih => exact ih.step (by rwa [h.edge _ hn])

theorem symm : G'.Agrees G where
  root := h.root.symm
  edge n hn := (h.edge n (h.reach_iff.mp hn)).symm
  cell n hn := (h.cell n (h.reach_iff.mp hn)).symm

theorem uses_iff {use : Use N S I} {b : N} : G'.Uses use b ↔ G.Uses use b := by
  cases use with
  | root => rw [uses_root_iff, uses_root_iff, h.root]
  | edge n s =>
      rw [uses_edge_iff, uses_edge_iff, h.reach_iff]
      exact and_congr_right fun hn => by rw [h.edge n hn]
  | cell n i =>
      rw [uses_cell_iff, uses_cell_iff, h.reach_iff]
      exact and_congr_right fun hn => by rw [h.cell n hn]

theorem inUse_iff {b : N} : G'.InUse b ↔ G.InUse b := exists_congr fun _ => h.uses_iff

theorem exclusive (hex : G.Exclusive) : G'.Exclusive :=
  fun _ _ _ hu hv => hex _ _ _ (h.uses_iff.mp hu) (h.uses_iff.mp hv)

theorem uniqueLabels (huniq : G.UniqueLabels) : G'.UniqueLabels := by
  intro n s s' l m m' hn he he'
  have hn' := h.reach_iff.mp hn
  rw [h.edge n hn'] at he he'
  exact huniq n s s' l m m' hn' he he'

theorem leads {n : N} {ls : List L} {m : N} (hn : G.Reach n) (hl : G.Leads n ls m) : G'.Leads n ls m := by
  induction ls generalizing n with
  | nil => exact hl
  | cons l ls ih =>
      obtain ⟨s, k, he, hk⟩ := hl
      exact ⟨s, k, by rwa [h.edge n hn], ih (hn.step he) hk⟩

theorem leads_root_iff {ls : List L} {m : N} : G'.Leads G'.root ls m ↔ G.Leads G.root ls m := by
  constructor
  · intro hl
    have := h.symm.leads .root hl
    rwa [h.root] at this
  · intro hl
    rw [h.root]
    exact h.leads .root hl

end Agrees

/-! ### Other labels -/

/-- The second graph differs in labels only. -/
structure Relabels (G G' : Graph N S L I) : Prop where
  root : G'.root = G.root
  edge : ∀ n s m, G.Reach n → ((∃ l, G'.edge n s = some (l, m)) ↔ ∃ l, G.edge n s = some (l, m))
  cell : ∀ n, G.Reach n → G'.cell n = G.cell n

namespace Relabels

variable {G' : Graph N S L I} (h : G.Relabels G')

include h

theorem reach_iff {n : N} : G'.Reach n ↔ G.Reach n := by
  constructor
  · intro hn
    induction hn with
    | root => exact h.root ▸ .root
    | step _ he ih =>
        obtain ⟨l, he'⟩ := (h.edge _ _ _ ih).mp ⟨_, he⟩
        exact ih.step he'
  · intro hn
    induction hn with
    | root => exact h.root ▸ .root
    | step hn he ih =>
        obtain ⟨l, he'⟩ := (h.edge _ _ _ hn).mpr ⟨_, he⟩
        exact ih.step he'

theorem uses_iff {use : Use N S I} {b : N} : G'.Uses use b ↔ G.Uses use b := by
  cases use with
  | root => rw [uses_root_iff, uses_root_iff, h.root]
  | edge n s =>
      rw [uses_edge_iff, uses_edge_iff, h.reach_iff]
      exact and_congr_right fun hn => h.edge n s b hn
  | cell n i =>
      rw [uses_cell_iff, uses_cell_iff, h.reach_iff]
      exact and_congr_right fun hn => by rw [h.cell n hn]

theorem inUse_iff {b : N} : G'.InUse b ↔ G.InUse b := exists_congr fun _ => h.uses_iff

theorem exclusive (hex : G.Exclusive) : G'.Exclusive :=
  fun _ _ _ hu hv => hex _ _ _ (h.uses_iff.mp hu) (h.uses_iff.mp hv)

/-- Another label at one slot, that no other slot of its node has, keeps the labels unique. -/
theorem uniqueLabels (huniq : G.UniqueLabels) {p : N} {s : S} {l : L} {k : N} (hhere : G'.edge p s = some (l, k))
    (hother : ∀ n t, G.Reach n → ¬(n = p ∧ t = s) → G'.edge n t = G.edge n t)
    (hnew : ∀ t m, t ≠ s → G.edge p t ≠ some (l, m)) : G'.UniqueLabels := by
  intro n s₁ s₂ a m m' hn he he'
  have hn' := h.reach_iff.mp hn
  by_cases h₁ : n = p ∧ s₁ = s
  · by_cases h₂ : n = p ∧ s₂ = s
    · exact h₁.2.trans h₂.2.symm
    · obtain ⟨rfl, rfl⟩ := h₁
      rw [hother n s₂ hn' h₂] at he'
      rw [hhere] at he
      obtain ⟨rfl, -⟩ := Prod.mk.inj (Option.some.inj he)
      exact absurd he' (hnew s₂ m' fun heq => h₂ ⟨rfl, heq⟩)
  · by_cases h₂ : n = p ∧ s₂ = s
    · obtain ⟨rfl, rfl⟩ := h₂
      rw [hother n s₁ hn' h₁] at he
      rw [hhere] at he'
      obtain ⟨rfl, -⟩ := Prod.mk.inj (Option.some.inj he')
      exact absurd he (hnew s₁ m fun heq => h₁ ⟨rfl, heq⟩)
    · rw [hother n s₁ hn' h₁] at he
      rw [hother n s₂ hn' h₂] at he'
      exact huniq n s₁ s₂ a m m' hn' he he'

end Relabels

/-! ### Changing the cells of one node -/

/-- The second graph differs in the cells of one node only. -/
structure ChangesCells (G G' : Graph N S L I) (n : N) : Prop where
  root : G'.root = G.root
  edge : ∀ k, G.Reach k → G'.edge k = G.edge k
  cell : ∀ k, G.Reach k → k ≠ n → G'.cell k = G.cell k

namespace ChangesCells

variable {G' : Graph N S L I} {n : N} (h : G.ChangesCells G' n)

include h

theorem reach_iff {k : N} : G'.Reach k ↔ G.Reach k := by
  constructor
  · intro hk
    induction hk with
    | root => exact h.root ▸ .root
    | step _ he ih => exact ih.step (by rwa [h.edge _ ih] at he)
  · intro hk
    induction hk with
    | root => exact h.root ▸ .root
    | step hk he ih => exact ih.step (by rwa [h.edge _ hk])

/-- The uses are those of the first graph, but for the cells of the node. -/
theorem uses_iff {use : Use N S I} {b : N} :
    G'.Uses use b ↔
      (G.Uses use b ∧ ∀ i, use ≠ .cell n i) ∨ ∃ i, use = .cell n i ∧ G.Reach n ∧ G'.cell n i = some b := by
  cases use with
  | root => simp [uses_root_iff, h.root]
  | edge k s =>
      simp only [uses_edge_iff, h.reach_iff, ne_eq, reduceCtorEq, not_false_eq_true, implies_true, and_true,
        false_and, exists_false, or_false]
      exact and_congr_right fun hk => by rw [h.edge k hk]
  | cell k i =>
      simp only [uses_cell_iff, h.reach_iff, ne_eq, Use.cell.injEq, not_and]
      constructor
      · rintro ⟨hk, hc⟩
        by_cases hkn : k = n
        · subst hkn
          exact Or.inr ⟨i, ⟨rfl, rfl⟩, hk, hc⟩
        · exact Or.inl ⟨⟨hk, by rwa [h.cell k hk hkn] at hc⟩, fun _ hkn' => absurd hkn' hkn⟩
      · rintro (⟨⟨hk, hc⟩, hne⟩ | ⟨j, ⟨rfl, rfl⟩, hn, hc⟩)
        · have hkn : k ≠ n := fun hkn => hne i hkn rfl
          exact ⟨hk, by rwa [h.cell k hk hkn]⟩
        · exact ⟨hn, hc⟩

/-- New cells that are old ones in their place or objects not in use keep the graph exclusive. -/
theorem exclusive (hex : G.Exclusive)
    (hcell : ∀ i b, G'.cell n i = some b → G.cell n i = some b ∨ ¬G.InUse b)
    (hinj : ∀ i j b, G'.cell n i = some b → G'.cell n j = some b → i = j) : G'.Exclusive := by
  intro use use' b hu hv
  rcases h.uses_iff.mp hu with ⟨hu, hune⟩ | ⟨i, rfl, hn, hi⟩
  · rcases h.uses_iff.mp hv with ⟨hv, -⟩ | ⟨j, rfl, hn, hj⟩
    · exact hex _ _ _ hu hv
    · rcases hcell j b hj with hold | hfresh
      · exact absurd (hex _ _ _ hu (.cell hn hold)) (hune j)
      · exact absurd hu.inUse hfresh
  · rcases h.uses_iff.mp hv with ⟨hv, hvne⟩ | ⟨j, rfl, -, hj⟩
    · rcases hcell i b hi with hold | hfresh
      · exact absurd (hex _ _ _ hv (.cell hn hold)) (hvne i)
      · exact absurd hv.inUse hfresh
    · rw [hinj i j b hi hj]

theorem uniqueLabels (huniq : G.UniqueLabels) : G'.UniqueLabels := by
  intro k s s' l m m' hk he he'
  have hk' := h.reach_iff.mp hk
  rw [h.edge k hk'] at he he'
  exact huniq k s s' l m m' hk' he he'

theorem leads_iff {k : N} {ls : List L} {m : N} (hk : G.Reach k) : G'.Leads k ls m ↔ G.Leads k ls m := by
  induction ls generalizing k with
  | nil => exact Iff.rfl
  | cons l ls ih =>
      simp only [Leads, h.edge k hk]
      exact exists_congr fun s => exists_congr fun k' =>
        and_congr_right fun he => ih (hk.step he)

end ChangesCells

/-! ### Removing an edge -/

/-- The second graph lacks the edge at one slot. -/
structure RemovesEdge (G G' : Graph N S L I) (p : N) (s : S) : Prop where
  root : G'.root = G.root
  gone : G'.edge p s = none
  edge : ∀ n t, G.Reach n → ¬(n = p ∧ t = s) → G'.edge n t = G.edge n t
  cell : ∀ n, G.Reach n → G'.cell n = G.cell n

namespace RemovesEdge

variable {G' : Graph N S L I} {p : N} {s : S} (h : G.RemovesEdge G' p s)

include h

theorem edge_of_edge {n : N} {t : S} {l : L} {m : N} (hn : G.Reach n) (he : G'.edge n t = some (l, m)) :
    ¬(n = p ∧ t = s) ∧ G.edge n t = some (l, m) := by
  have hne : ¬(n = p ∧ t = s) := by
    rintro ⟨rfl, rfl⟩
    simp [h.gone] at he
  exact ⟨hne, by rwa [h.edge n t hn hne] at he⟩

theorem reach {n : N} (hn : G'.Reach n) : G.Reach n := by
  induction hn with
  | root => exact h.root ▸ .root
  | step _ he ih => exact ih.step (h.edge_of_edge ih he).2

theorem uses {use : Use N S I} {b : N} (hu : G'.Uses use b) : G.Uses use b ∧ use ≠ .edge p s := by
  cases use with
  | root =>
      rw [uses_root_iff, h.root] at hu
      exact ⟨uses_root_iff.mpr hu, by simp⟩
  | edge n t =>
      obtain ⟨hn, l, he⟩ := uses_edge_iff.mp hu
      obtain ⟨hne, he⟩ := h.edge_of_edge (h.reach hn) he
      exact ⟨.edge (h.reach hn) he, by simpa using hne⟩
  | cell n i =>
      obtain ⟨hn, hc⟩ := uses_cell_iff.mp hu
      rw [h.cell n (h.reach hn)] at hc
      exact ⟨.cell (h.reach hn) hc, by simp⟩

theorem exclusive (hex : G.Exclusive) : G'.Exclusive :=
  fun _ _ _ hu hv => hex _ _ _ (h.uses hu).1 (h.uses hv).1

theorem uniqueLabels (huniq : G.UniqueLabels) : G'.UniqueLabels := by
  intro n t t' l m m' hn he he'
  have hn' := h.reach hn
  exact huniq n t t' l m m' hn' (h.edge_of_edge hn' he).2 (h.edge_of_edge hn' he').2

variable {l : L} {t : N}

/-- The object the edge named is in use no more. -/
theorem not_inUse (hex : G.Exclusive) (hp : G.Reach p) (he : G.edge p s = some (l, t)) : ¬G'.InUse t := by
  rintro ⟨use, hu⟩
  obtain ⟨hu, hne⟩ := h.uses hu
  exact hne (hex _ _ _ hu (.edge hp he))

/-- Nor are its cells. -/
theorem not_inUse_cell (hex : G.Exclusive) (hp : G.Reach p) (he : G.edge p s = some (l, t)) {i : I} {b : N}
    (hc : G.cell t i = some b) : ¬G'.InUse b := by
  rintro ⟨use, hu⟩
  have hcell := hex _ _ _ (h.uses hu).1 (.cell (hp.step he) hc)
  subst hcell
  obtain ⟨ht, -⟩ := uses_cell_iff.mp hu
  exact h.not_inUse hex hp he ht.inUse

/-- Where the object has no edges, nothing else becomes unreachable. -/
theorem reach_iff (hex : G.Exclusive) (hp : G.Reach p) (he : G.edge p s = some (l, t))
    (hleaf : ∀ s, G.edge t s = none) {n : N} : G'.Reach n ↔ G.Reach n ∧ n ≠ t := by
  constructor
  · refine fun hn => ⟨h.reach hn, ?_⟩
    rintro rfl
    exact h.not_inUse hex hp he hn.inUse
  · rintro ⟨hn, hnt⟩
    induction hn with
    | root => exact h.root ▸ .root
    | @step k s' l' m hk hke ih =>
        have hkt : k ≠ t := by
          rintro rfl
          simp [hleaf] at hke
        refine (ih hkt).step ((h.edge k s' hk ?_).trans hke)
        rintro ⟨rfl, rfl⟩
        rw [he] at hke
        simp only [Option.some.injEq, Prod.mk.injEq] at hke
        exact hnt hke.2.symm

theorem uses_iff (hex : G.Exclusive) (hp : G.Reach p) (he : G.edge p s = some (l, t))
    (hleaf : ∀ s, G.edge t s = none) {use : Use N S I} {b : N} :
    G'.Uses use b ↔ G.Uses use b ∧ use ≠ .edge p s ∧ ∀ i, use ≠ .cell t i := by
  constructor
  · intro hu
    refine ⟨(h.uses hu).1, (h.uses hu).2, ?_⟩
    rintro i rfl
    exact h.not_inUse hex hp he (uses_cell_iff.mp hu).1.inUse
  · rintro ⟨hu, hne, hcell⟩
    cases use with
    | root => exact uses_root_iff.mpr ((uses_root_iff.mp hu).trans h.root.symm)
    | edge n s' =>
        obtain ⟨hn, l', hne'⟩ := uses_edge_iff.mp hu
        have hnt : n ≠ t := by
          rintro rfl
          simp [hleaf] at hne'
        exact .edge ((h.reach_iff hex hp he hleaf).mpr ⟨hn, hnt⟩)
          ((h.edge n s' hn (by simpa using hne)).trans hne')
    | cell n i =>
        obtain ⟨hn, hc⟩ := uses_cell_iff.mp hu
        have hnt : n ≠ t := by
          rintro rfl
          exact hcell i rfl
        exact .cell ((h.reach_iff hex hp he hleaf).mpr ⟨hn, hnt⟩) (by rwa [h.cell n hn])

/-- What is in use then is what was, less the object and its cells. -/
theorem inUse_iff (hex : G.Exclusive) (hp : G.Reach p) (he : G.edge p s = some (l, t))
    (hleaf : ∀ s, G.edge t s = none) {b : N} :
    G'.InUse b ↔ G.InUse b ∧ b ≠ t ∧ ∀ i, G.cell t i ≠ some b := by
  constructor
  · intro hb
    obtain ⟨use, hu⟩ := hb
    refine ⟨(h.uses hu).1.inUse, ?_, fun i hc => h.not_inUse_cell hex hp he hc ⟨use, hu⟩⟩
    rintro rfl
    exact h.not_inUse hex hp he ⟨use, hu⟩
  · rintro ⟨⟨use, hu⟩, hbt, hcell⟩
    refine ⟨use, (h.uses_iff hex hp he hleaf).mpr ⟨hu, ?_, ?_⟩⟩
    · rintro rfl
      obtain ⟨-, l', he'⟩ := uses_edge_iff.mp hu
      obtain ⟨-, rfl⟩ := Prod.mk.inj (Option.some.inj (he.symm.trans he'))
      exact hbt rfl
    · rintro i rfl
      exact hcell i (uses_cell_iff.mp hu).2

/-- The lists of labels that lead somewhere else still do. -/
theorem leads_root_iff (hex : G.Exclusive) (hp : G.Reach p) (he : G.edge p s = some (l, t))
    (hleaf : ∀ s, G.edge t s = none) {ls : List L} {m : N} :
    G'.Leads G'.root ls m ↔ G.Leads G.root ls m ∧ m ≠ t := by
  rw [h.root]
  induction ls using List.reverseRecOn generalizing m with
  | nil =>
      refine ⟨fun hm => ⟨hm, ?_⟩, fun hm => hm.1⟩
      rintro rfl
      obtain rfl : G.root = m := hm
      cases hex _ _ _ .root (.edge hp he)
  | append_singleton ls a ih =>
      simp only [leads_snoc, ih]
      constructor
      · rintro ⟨k, s', ⟨hk, hkt⟩, hke⟩
        have hkr := hk.reach .root
        refine ⟨⟨k, s', hk, (h.edge_of_edge hkr hke).2⟩, ?_⟩
        rintro rfl
        have := hex _ _ _ (.edge hkr (h.edge_of_edge hkr hke).2) (.edge hp he)
        simp only [Use.edge.injEq] at this
        exact (h.edge_of_edge hkr hke).1 this
      · rintro ⟨⟨k, s', hk, hke⟩, hmt⟩
        have hkt : k ≠ t := by
          rintro rfl
          simp [hleaf] at hke
        refine ⟨k, s', ⟨hk, hkt⟩, (h.edge k s' (hk.reach .root) ?_).trans hke⟩
        rintro ⟨rfl, rfl⟩
        rw [he] at hke
        simp only [Option.some.injEq, Prod.mk.injEq] at hke
        exact hmt hke.2.symm

end RemovesEdge

/-! ### Adding a leaf -/

/-- The second graph has one more edge, to an object that was not in use and has no edges itself. -/
structure AddsLeaf (G G' : Graph N S L I) (p : N) (s : S) (l : L) (t : N) : Prop where
  root : G'.root = G.root
  parent : G.Reach p
  free : G.edge p s = none
  added : G'.edge p s = some (l, t)
  edge : ∀ n s', G.Reach n → ¬(n = p ∧ s' = s) → G'.edge n s' = G.edge n s'
  cell : ∀ n, G.Reach n → G'.cell n = G.cell n
  fresh : ¬G.InUse t
  leaf : ∀ s, G'.edge t s = none
  freshCell : ∀ i b, G'.cell t i = some b → ¬G.InUse b ∧ b ≠ t
  injCell : ∀ i j b, G'.cell t i = some b → G'.cell t j = some b → i = j

namespace AddsLeaf

variable {G' : Graph N S L I} {p : N} {s : S} {l : L} {t : N} (h : G.AddsLeaf G' p s l t)

include h

theorem edge_of_edge {n : N} {s' : S} {e : L × N} (hn : G.Reach n) (he : G.edge n s' = some e) :
    G'.edge n s' = some e := by
  rw [h.edge n s' hn, he]
  rintro ⟨rfl, rfl⟩
  simp [h.free] at he

theorem reach_iff {n : N} : G'.Reach n ↔ G.Reach n ∨ n = t := by
  constructor
  · intro hn
    induction hn with
    | root => exact Or.inl (h.root ▸ .root)
    | @step k s' l' m _ he ih =>
        rcases ih with hk | rfl
        · by_cases hks : k = p ∧ s' = s
          · obtain ⟨rfl, rfl⟩ := hks
            rw [h.added] at he
            simp only [Option.some.injEq, Prod.mk.injEq] at he
            exact Or.inr he.2.symm
          · rw [h.edge k s' hk hks] at he
            exact Or.inl (hk.step he)
        · simp [h.leaf] at he
  · have hold : ∀ {n : N}, G.Reach n → G'.Reach n := by
      intro n hn
      induction hn with
      | root => exact h.root ▸ .root
      | step hk he ih => exact ih.step (h.edge_of_edge hk he)
    rintro (hn | rfl)
    · exact hold hn
    · exact (hold h.parent).step h.added

theorem uses_iff {use : Use N S I} {b : N} :
    G'.Uses use b ↔ G.Uses use b ∨ (use = .edge p s ∧ b = t) ∨ ∃ i, use = .cell t i ∧ G'.cell t i = some b := by
  cases use with
  | root => simp [uses_root_iff, h.root]
  | edge n s' =>
      simp only [uses_edge_iff, h.reach_iff, Use.edge.injEq, reduceCtorEq, false_and, exists_false, or_false]
      constructor
      · rintro ⟨hn | rfl, l', he⟩
        · by_cases hns : n = p ∧ s' = s
          · obtain ⟨rfl, rfl⟩ := hns
            rw [h.added] at he
            simp only [Option.some.injEq, Prod.mk.injEq] at he
            exact Or.inr ⟨⟨rfl, rfl⟩, he.2.symm⟩
          · rw [h.edge n s' hn hns] at he
            exact Or.inl ⟨hn, l', he⟩
        · simp [h.leaf] at he
      · rintro (⟨hn, l', he⟩ | ⟨⟨rfl, rfl⟩, rfl⟩)
        · exact ⟨Or.inl hn, l', h.edge_of_edge hn he⟩
        · exact ⟨Or.inl h.parent, l, h.added⟩
  | cell n i =>
      simp only [uses_cell_iff, h.reach_iff, reduceCtorEq, false_and, Use.cell.injEq, false_or]
      constructor
      · rintro ⟨hn | rfl, hc⟩
        · rw [h.cell n hn] at hc
          exact Or.inl ⟨hn, hc⟩
        · exact Or.inr ⟨i, ⟨rfl, rfl⟩, hc⟩
      · rintro (⟨hn, hc⟩ | ⟨j, ⟨rfl, rfl⟩, hc⟩)
        · exact ⟨Or.inl hn, by rwa [h.cell n hn]⟩
        · exact ⟨Or.inr rfl, hc⟩

theorem inUse_iff {b : N} : G'.InUse b ↔ G.InUse b ∨ b = t ∨ ∃ i, G'.cell t i = some b := by
  simp only [InUse, h.uses_iff]
  constructor
  · rintro ⟨use, hu | ⟨-, hb⟩ | ⟨i, -, hc⟩⟩
    · exact Or.inl ⟨use, hu⟩
    · exact Or.inr (Or.inl hb)
    · exact Or.inr (Or.inr ⟨i, hc⟩)
  · rintro (⟨use, hu⟩ | hb | ⟨i, hc⟩)
    · exact ⟨use, Or.inl hu⟩
    · exact ⟨_, Or.inr (Or.inl ⟨rfl, hb⟩)⟩
    · exact ⟨_, Or.inr (Or.inr ⟨i, rfl, hc⟩)⟩

theorem exclusive (hex : G.Exclusive) : G'.Exclusive := by
  intro use use' b hu hv
  rcases h.uses_iff.mp hu with hu | ⟨rfl, rfl⟩ | ⟨i, rfl, hi⟩
  · rcases h.uses_iff.mp hv with hv | ⟨-, rfl⟩ | ⟨j, -, hj⟩
    · exact hex _ _ _ hu hv
    · exact absurd hu.inUse h.fresh
    · exact absurd hu.inUse (h.freshCell j b hj).1
  · rcases h.uses_iff.mp hv with hv | ⟨rfl, -⟩ | ⟨j, -, hj⟩
    · exact absurd hv.inUse h.fresh
    · rfl
    · exact absurd rfl (h.freshCell j b hj).2
  · rcases h.uses_iff.mp hv with hv | ⟨-, rfl⟩ | ⟨j, rfl, hj⟩
    · exact absurd hv.inUse (h.freshCell i b hi).1
    · exact absurd rfl (h.freshCell i b hi).2
    · rw [h.injCell i j b hi hj]

/-- A label that the node did not have keeps the labels unique. -/
theorem uniqueLabels (huniq : G.UniqueLabels) (hnew : ∀ s' m, G.edge p s' ≠ some (l, m)) :
    G'.UniqueLabels := by
  have hsplit : ∀ n s' a m, G.Reach n → G'.edge n s' = some (a, m) →
      G.edge n s' = some (a, m) ∨ n = p ∧ s' = s ∧ a = l := by
    intro n s' a m hn he
    by_cases hns : n = p ∧ s' = s
    · obtain ⟨rfl, rfl⟩ := hns
      rw [h.added] at he
      simp only [Option.some.injEq, Prod.mk.injEq] at he
      exact Or.inr ⟨rfl, rfl, he.1.symm⟩
    · rw [h.edge n s' hn hns] at he
      exact Or.inl he
  intro n s₁ s₂ a m m' hn he he'
  rcases h.reach_iff.mp hn with hn | rfl
  · rcases hsplit n s₁ a m hn he with he | ⟨rfl, rfl, rfl⟩
    · rcases hsplit n s₂ a m' hn he' with he' | ⟨rfl, rfl, rfl⟩
      · exact huniq n s₁ s₂ a m m' hn he he'
      · exact absurd he (hnew s₁ m)
    · rcases hsplit n s₂ a m' hn he' with he' | ⟨-, rfl, -⟩
      · exact absurd he' (hnew s₂ m')
      · rfl
  · simp [h.leaf] at he

/-- The lists of labels that lead somewhere are the old ones and the one to the leaf. -/
theorem leads_root_iff {ls : List L} {m : N} :
    G'.Leads G'.root ls m ↔
      G.Leads G.root ls m ∨ m = t ∧ ∃ ls', ls = ls' ++ [l] ∧ G.Leads G.root ls' p := by
  rw [h.root]
  induction ls using List.reverseRecOn generalizing m with
  | nil => simp [Leads]
  | append_singleton ls a ih =>
      simp only [leads_snoc, ih]
      constructor
      · rintro ⟨k, s', hk | ⟨rfl, -⟩, he⟩
        · by_cases hks : k = p ∧ s' = s
          · obtain ⟨rfl, rfl⟩ := hks
            rw [h.added] at he
            simp only [Option.some.injEq, Prod.mk.injEq] at he
            obtain ⟨rfl, rfl⟩ := he
            exact Or.inr ⟨rfl, ls, rfl, hk⟩
          · rw [h.edge k s' (hk.reach .root) hks] at he
            exact Or.inl ⟨k, s', hk, he⟩
        · simp [h.leaf] at he
      · rintro (⟨k, s', hk, he⟩ | ⟨rfl, ls', hls, hp⟩)
        · exact ⟨k, s', Or.inl hk, h.edge_of_edge (hk.reach .root) he⟩
        · obtain ⟨rfl, hl⟩ := List.append_inj' hls rfl
          obtain rfl : a = l := by simpa using hl
          exact ⟨p, s, Or.inl hp, h.added⟩

end AddsLeaf

end Graph

end Ownership
