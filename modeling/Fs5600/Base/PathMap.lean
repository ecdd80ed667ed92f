import Fs5600.Base.Ownership

/-! Maps from paths: what stands at every list of labels. A rooted graph shows such a map where the lists of labels
that lead to a node have its attribute. What is done to the graph is then done to the map at one path, and another
label at an edge moves all that is below it. -/

namespace Ownership

variable {N S L I A : Type}

/-- What stands at the lists of labels. -/
abbrev PathMap (L A : Type) : Type := List L → Option A

/-- Why nothing is found at a path. -/
inductive Missing
  | absent
  | notInner
  deriving DecidableEq

namespace PathMap

/-- What stands at one path and below it is moved to another. -/
def move [DecidableEq L] (src dst : List L) (map : PathMap L A) : PathMap L A := fun ls =>
  if dst <+: ls then map (src ++ ls.drop dst.length) else if src <+: ls then none else map ls

/-- Going down a path from another one: whatever is gone through must be an inner node. -/
def find (inner : A → Bool) (map : PathMap L A) : List L → List L → Except Missing A
  | ls, [] =>
      match map ls with
      | none => .error .absent
      | some a => .ok a
  | ls, l :: rest =>
      match map ls with
      | none => .error .absent
      | some a => if inner a then find inner map (ls ++ [l]) rest else .error .notInner

variable {map : PathMap L A} {inner : A → Bool} {ls rest : List L} {a : A}

theorem find_of_none (h : map ls = none) : find inner map ls rest = .error .absent := by
  cases rest with
  | nil => rw [find, h]
  | cons l rest => rw [find, h]

theorem find_nil (h : map ls = some a) : find inner map ls [] = .ok a := by
  rw [find, h]

theorem find_cons {l : L} (h : map ls = some a) :
    find inner map ls (l :: rest) = if inner a then find inner map (ls ++ [l]) rest else .error .notInner := by
  rw [find, h]

section Move

variable [DecidableEq L] {src dst : List L}

theorem move_dst (rest : List L) : move src dst map (dst ++ rest) = map (src ++ rest) := by
  rw [move, if_pos (List.prefix_append dst rest), List.drop_left]

theorem move_of_not_prefix (hdst : ¬dst <+: ls) (hsrc : ¬src <+: ls) : move src dst map ls = map ls := by
  rw [move, if_neg hdst, if_neg hsrc]

end Move

end PathMap

namespace Graph

/-- The lists of labels that lead to a node have its attribute in the map, and the others have none. -/
def Shows (G : Graph N S L I) (attr : N → A) (map : PathMap L A) : Prop :=
  ∀ ls a, map ls = some a ↔ ∃ n, G.Leads G.root ls n ∧ attr n = a

variable {G G' : Graph N S L I} {attr attr' : N → A} {map : PathMap L A} {ls : List L} {n : N} {a : A}

theorem Shows.of_leads (h : G.Shows attr map) (hleads : G.Leads G.root ls n) : map ls = some (attr n) :=
  (h ls _).mpr ⟨n, hleads, rfl⟩

theorem Shows.eq_none_iff (h : G.Shows attr map) : map ls = none ↔ ∀ n, ¬G.Leads G.root ls n := by
  constructor
  · intro hnone n hleads
    cases hnone.symm.trans (h.of_leads hleads)
  · intro hnot
    rcases hmap : map ls with _ | a
    · rfl
    · obtain ⟨n, hleads, -⟩ := (h ls a).mp hmap
      exact absurd hleads (hnot n)

open Classical in
/-- The map that a graph shows. -/
noncomputable def shown (G : Graph N S L I) (attr : N → A) : PathMap L A := fun ls =>
  if h : ∃ n, G.Leads G.root ls n then some (attr h.choose) else none

theorem shows_shown (huniq : G.UniqueLabels) : G.Shows attr (G.shown attr) := by
  intro ls a
  by_cases h : ∃ n, G.Leads G.root ls n
  · have hchosen : ∀ n, G.Leads G.root ls n → n = h.choose := fun n hn =>
      huniq.leads_unique .root hn h.choose_spec
    rw [shown, dif_pos h, Option.some.injEq]
    constructor
    · exact fun heq => ⟨h.choose, h.choose_spec, heq⟩
    · rintro ⟨n, hn, rfl⟩
      rw [hchosen n hn]
  · rw [shown, dif_neg h]
    exact iff_of_false nofun fun ⟨n, hn, _⟩ => h ⟨n, hn⟩

/-- Some list of labels leads to a node that is reached. -/
theorem Reach.leads (h : G.Reach n) : ∃ ls, G.Leads G.root ls n := by
  induction h with
  | root => exact ⟨[], rfl⟩
  | step _ he ih =>
      obtain ⟨ls, hleads⟩ := ih
      exact ⟨ls ++ [_], leads_snoc.mpr ⟨_, _, hleads, he⟩⟩

/-- In an exclusive graph the nodes on the way to a node are different ones, so a bound of the nodes bounds the way. -/
theorem Exclusive.length_lt_of_leads {G : Graph Nat S L I} (hex : G.Exclusive) {bound : Nat}
    (hbound : ∀ n, G.Reach n → n < bound) {m : Nat} (h : G.Leads G.root ls m) : ls.length < bound := by
  have hway : ∀ k : Fin (ls.length + 1), ∃ n, G.Leads G.root (ls.take k) n := by
    intro k
    rw [← List.take_append_drop k ls] at h
    obtain ⟨n, hn, -⟩ := leads_append.mp h
    exact ⟨n, hn⟩
  choose node hnode using hway
  have hinjective : Function.Injective fun k => (⟨node k, hbound _ ((hnode k).reach .root)⟩ : Fin bound) := by
    intro j k hjk
    have heq : node j = node k := Fin.mk.inj hjk
    have htake := congrArg List.length (hex.leads_injective (hnode j) (heq ▸ hnode k))
    rw [List.length_take, List.length_take, Nat.min_eq_left (Nat.le_of_lt_succ j.isLt),
      Nat.min_eq_left (Nat.le_of_lt_succ k.isLt)] at htake
    exact Fin.ext htake
  have hcard := Fintype.card_le_of_injective _ hinjective
  rwa [Fintype.card_fin, Fintype.card_fin] at hcard

/-! ### Changes -/

/-- The same paths, and attributes that are the same. -/
theorem Shows.congr (h : G.Shows attr map) (hleads : ∀ ls n, G'.Leads G'.root ls n ↔ G.Leads G.root ls n)
    (hattr : ∀ n, G.Reach n → attr' n = attr n) : G'.Shows attr' map := by
  intro ls a
  rw [h ls a]
  refine exists_congr fun n => ?_
  rw [hleads]
  exact and_congr_right fun hn => by rw [hattr n (hn.reach .root)]

/-- The same paths, and another attribute of one node. -/
theorem Shows.alter [DecidableEq L] (h : G.Shows attr map) (hex : G.Exclusive) (huniq : G.UniqueLabels)
    (hpath : G.Leads G.root ls n) (hleads : ∀ ls n, G'.Leads G'.root ls n ↔ G.Leads G.root ls n)
    (hattr : ∀ m, G.Reach m → m ≠ n → attr' m = attr m) :
    G'.Shows attr' (Function.update map ls (some (attr' n))) := by
  intro ls' a
  by_cases heq : ls' = ls
  · subst heq
    rw [Function.update_self, Option.some.injEq]
    constructor
    · exact fun ha => ⟨n, (hleads _ n).mpr hpath, ha⟩
    · rintro ⟨m, hm, rfl⟩
      rw [huniq.leads_unique .root ((hleads _ m).mp hm) hpath]
  · rw [Function.update_of_ne heq, h ls' a]
    refine exists_congr fun m => ?_
    rw [hleads]
    refine and_congr_right fun hm => ?_
    rw [hattr m (hm.reach .root)]
    rintro rfl
    exact heq (hex.leads_injective hm hpath)

/-- A new leaf stands at the path of its parent and its label. -/
theorem Shows.addsLeaf [DecidableEq L] (h : G.Shows attr map) {p t : N} {s : S} {l : L}
    (hadds : G.AddsLeaf G' p s l t) (hex : G.Exclusive) (huniq : G.UniqueLabels) (hparent : G.Leads G.root ls p)
    (hnew : ∀ s' m, G.edge p s' ≠ some (l, m)) (hattr : ∀ m, G.Reach m → attr' m = attr m) :
    G'.Shows attr' (Function.update map (ls ++ [l]) (some (attr' t))) := by
  intro ls' a
  by_cases heq : ls' = ls ++ [l]
  · subst heq
    rw [Function.update_self, Option.some.injEq]
    constructor
    · exact fun ha => ⟨t, hadds.leads_root_iff.mpr (Or.inr ⟨rfl, ls, rfl, hparent⟩), ha⟩
    · rintro ⟨m, hm, rfl⟩
      rcases hadds.leads_root_iff.mp hm with hold | ⟨rfl, -⟩
      · obtain ⟨k, s', hk, he⟩ := leads_snoc.mp hold
        obtain rfl := huniq.leads_unique .root hk hparent
        exact absurd he (hnew s' m)
      · rfl
  · rw [Function.update_of_ne heq, h ls' a]
    refine exists_congr fun m => ?_
    rw [hadds.leads_root_iff]
    constructor
    · rintro ⟨hm, rfl⟩
      exact ⟨Or.inl hm, hattr m (hm.reach .root)⟩
    · rintro ⟨hm | ⟨-, ls'', rfl, hp⟩, rfl⟩
      · exact ⟨hm, (hattr m (hm.reach .root)).symm⟩
      · rw [hex.leads_injective hp hparent] at heq
        exact absurd rfl heq

/-- Nothing stands at the path of a leaf whose edge is removed. -/
theorem Shows.removesEdge [DecidableEq L] (h : G.Shows attr map) {p t : N} {s : S} {l : L}
    (hremoves : G.RemovesEdge G' p s) (hex : G.Exclusive) (huniq : G.UniqueLabels) (hp : G.Reach p)
    (he : G.edge p s = some (l, t)) (hleaf : ∀ s, G.edge t s = none) (hpath : G.Leads G.root ls t)
    (hattr : ∀ m, G.Reach m → attr' m = attr m) : G'.Shows attr' (Function.update map ls none) := by
  intro ls' a
  have hiff : ∀ m, G'.Leads G'.root ls' m ↔ G.Leads G.root ls' m ∧ m ≠ t := fun m =>
    hremoves.leads_root_iff hex hp he hleaf
  by_cases heq : ls' = ls
  · subst heq
    rw [Function.update_self]
    refine iff_of_false nofun ?_
    rintro ⟨m, hm, -⟩
    obtain ⟨hold, hne⟩ := (hiff m).mp hm
    exact hne (huniq.leads_unique .root hold hpath)
  · rw [Function.update_of_ne heq, h ls' a]
    refine exists_congr fun m => ?_
    rw [hiff]
    constructor
    · rintro ⟨hm, rfl⟩
      refine ⟨⟨hm, ?_⟩, hattr m (hm.reach .root)⟩
      rintro rfl
      exact heq (hex.leads_injective hm hpath)
    · rintro ⟨⟨hm, -⟩, rfl⟩
      exact ⟨hm, (hattr m (hm.reach .root)).symm⟩

/-! ### Another label -/

/-- The second graph has another label at one edge. -/
structure RelabelsAt (G G' : Graph N S L I) (p : N) (s : S) (l l' : L) (t : N) : Prop where
  relabels : G.Relabels G'
  reach : G.Reach p
  before : G.edge p s = some (l, t)
  after : G'.edge p s = some (l', t)
  edge : ∀ n s', G.Reach n → ¬(n = p ∧ s' = s) → G'.edge n s' = G.edge n s'

namespace RelabelsAt

variable {p t : N} {s : S} {l l' : L} (h : G.RelabelsAt G' p s l l' t)

include h

/-- A path that does not go through the edge leads where it led. -/
theorem leads_of_not_prefix (hex : G.Exclusive) (hparent : G.Leads G.root ls p) {ls' : List L} {m : N}
    (hleads : G.Leads G.root ls' m) (hnot : ¬ls ++ [l] <+: ls') : G'.Leads G'.root ls' m := by
  induction ls' using List.reverseRecOn generalizing m with
  | nil =>
      obtain rfl : G.root = m := hleads
      exact h.relabels.root
  | append_singleton init b ih =>
      obtain ⟨k, s', hk, he⟩ := leads_snoc.mp hleads
      have hk' := ih hk fun hpre => hnot (hpre.trans (List.prefix_append _ _))
      refine leads_snoc.mpr ⟨k, s', hk', ?_⟩
      rw [h.edge k s' (hk.reach .root), he]
      rintro ⟨rfl, rfl⟩
      rw [h.before] at he
      obtain ⟨rfl, -⟩ := Prod.mk.inj (Option.some.inj he)
      rw [hex.leads_injective hk hparent] at hnot
      exact hnot List.prefix_rfl

/-- A path through the edge leads where it led, with the new label. -/
theorem leads_below (hex : G.Exclusive) (huniq : G.UniqueLabels) (hparent : G.Leads G.root ls p) {rest : List L} {m : N}
    (hleads : G.Leads G.root (ls ++ [l] ++ rest) m) : G'.Leads G'.root (ls ++ [l'] ++ rest) m := by
  induction rest using List.reverseRecOn generalizing m with
  | nil =>
      rw [List.append_nil] at hleads ⊢
      obtain ⟨k, s', hk, he⟩ := leads_snoc.mp hleads
      obtain rfl := huniq.leads_unique .root hk hparent
      obtain rfl := huniq _ _ _ _ _ _ h.reach he h.before
      obtain rfl : m = t := (Prod.mk.inj (Option.some.inj (he.symm.trans h.before))).2
      refine leads_snoc.mpr ⟨k, s', h.leads_of_not_prefix hex hk hk fun hpre => ?_, h.after⟩
      have hlength := hpre.length_le
      rw [List.length_append, List.length_singleton] at hlength
      omega
  | append_singleton init b ih =>
      rw [← List.append_assoc] at hleads ⊢
      obtain ⟨k, s', hk, he⟩ := leads_snoc.mp hleads
      refine leads_snoc.mpr ⟨k, s', ih hk, ?_⟩
      rw [h.edge k s' (hk.reach .root), he]
      rintro ⟨rfl, -⟩
      -- the path to the parent is shorter
      have hlength := congrArg List.length (hex.leads_injective hk hparent)
      simp only [List.length_append, List.length_singleton] at hlength
      omega

end RelabelsAt

/-- Another label moves what is below the edge. -/
theorem Shows.relabels [DecidableEq L] (h : G.Shows attr map) {p t : N} {s : S} {l l' : L}
    (hrelabels : G.RelabelsAt G' p s l l' t) (hex : G.Exclusive) (huniq : G.UniqueLabels)
    (hparent : G.Leads G.root ls p) (hnew : l' = l ∨ ∀ s' m, G.edge p s' ≠ some (l', m))
    (hattr : ∀ m, G.Reach m → attr' m = attr m) : G'.Shows attr' (map.move (ls ++ [l]) (ls ++ [l'])) := by
  have hex' := hrelabels.relabels.exclusive hex
  intro ls' a
  constructor
  · intro hmap
    rw [PathMap.move] at hmap
    split_ifs at hmap with hdst hsrc
    · obtain ⟨rest, rfl⟩ := hdst
      rw [List.drop_left] at hmap
      obtain ⟨m, hm, rfl⟩ := (h _ a).mp hmap
      exact ⟨m, hrelabels.leads_below hex huniq hparent hm, hattr m (hm.reach .root)⟩
    · obtain ⟨m, hm, rfl⟩ := (h _ a).mp hmap
      exact ⟨m, hrelabels.leads_of_not_prefix hex hparent hm hsrc, hattr m (hm.reach .root)⟩
  · rintro ⟨m, hm, rfl⟩
    have hreach := hrelabels.relabels.reach_iff.mp (hm.reach .root)
    obtain ⟨ls₀, hold⟩ := hreach.leads
    rw [hattr m hreach]
    by_cases hsrc : ls ++ [l] <+: ls₀
    · obtain ⟨rest, rfl⟩ := hsrc
      rw [hex'.leads_injective hm (hrelabels.leads_below hex huniq hparent hold), PathMap.move_dst]
      exact h.of_leads hold
    · obtain rfl := hex'.leads_injective hm (hrelabels.leads_of_not_prefix hex hparent hold hsrc)
      rw [PathMap.move_of_not_prefix _ hsrc]
      · exact h.of_leads hold
      · rintro ⟨rest, rfl⟩
        rcases hnew with rfl | hnew
        · exact hsrc (List.prefix_append _ _)
        · obtain ⟨k, hk, -⟩ := leads_append.mp hold
          obtain ⟨p', s', hp', he⟩ := leads_snoc.mp hk
          obtain rfl := huniq.leads_unique .root hp' hparent
          exact hnew s' k he

end Graph

end Ownership
