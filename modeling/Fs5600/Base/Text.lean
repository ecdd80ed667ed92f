import Mathlib

/-! Texts as byte strings: fields between separators, and numerals. A numeral is digits, with single underscores between
them; it is written without underscores and without leading zeros. -/

namespace Text

/-! ### Fields -/

/-- The parts of a text between separators that are not empty. -/
def fields (isSep : UInt8 → Bool) (text : List UInt8) : List (List UInt8) :=
  (text.splitOnP isSep).filter fun part => !part.isEmpty

section Fields

variable {isSep : UInt8 → Bool} {sep : UInt8} {parts : List (List UInt8)}

/-- What is joined with a separator is split again. -/
theorem fields_intercalate (hsep : isSep sep = true) (hne : ∀ part ∈ parts, part ≠ [])
    (hnone : ∀ part ∈ parts, ∀ c ∈ part, isSep c = false) : fields isSep ([sep].intercalate parts) = parts := by
  have hkeep : parts.filter (fun part => !part.isEmpty) = parts :=
    List.filter_eq_self.mpr fun part hpart => by simpa using hne part hpart
  cases parts with
  | nil => rfl
  | cons part parts =>
      suffices hsplit : ([sep].intercalate (part :: parts)).splitOnP isSep = part :: parts by
        rw [fields, hsplit, hkeep]
      clear hkeep hne
      induction parts generalizing part with
      | nil =>
          rw [List.intercalate_singleton]
          exact List.splitOnP_eq_singleton (hnone part List.mem_cons_self)
      | cons next parts ih =>
          rw [List.intercalate_cons_cons, List.append_assoc, List.singleton_append,
            List.splitOnP_append_cons_of_forall_mem (hnone part List.mem_cons_self) sep hsep,
            ih next fun part hpart => hnone part (List.mem_cons_of_mem _ hpart)]

/-- No separator stands in a part. -/
theorem eq_false_of_mem_splitOnP {text part : List UInt8} (h : part ∈ text.splitOnP isSep) :
    ∀ c ∈ part, isSep c = false := by
  induction text generalizing part with
  | nil =>
      obtain rfl := List.mem_singleton.mp h
      simp
  | cons x text ih =>
      rw [List.splitOnP_cons_eq_if_modifyHead] at h
      split_ifs at h with hx
      · rcases List.mem_cons.mp h with rfl | h
        · simp
        · exact ih h
      · obtain ⟨first, rest, hsplit⟩ := List.exists_cons_of_ne_nil (List.splitOnP_ne_nil isSep text)
        rw [hsplit, List.modifyHead_cons] at h
        rcases List.mem_cons.mp h with rfl | h
        · exact List.forall_mem_cons.mpr ⟨by simpa using hx, ih (hsplit ▸ List.mem_cons_self)⟩
        · exact ih (hsplit ▸ List.mem_cons_of_mem _ h)

theorem mem_fields {text part : List UInt8} (h : part ∈ fields isSep text) : ∀ c ∈ part, isSep c = false :=
  eq_false_of_mem_splitOnP (List.mem_of_mem_filter h)

/-- A part of a text is part of it. -/
theorem sublist_of_mem_splitOnP {text part : List UInt8} (h : part ∈ text.splitOnP isSep) : part.Sublist text := by
  induction text generalizing part with
  | nil =>
      obtain rfl := List.mem_singleton.mp h
      simp
  | cons x text ih =>
      rw [List.splitOnP_cons_eq_if_modifyHead] at h
      split_ifs at h
      · rcases List.mem_cons.mp h with rfl | h
        · exact List.nil_sublist _
        · exact (ih h).cons x
      · obtain ⟨first, rest, hsplit⟩ := List.exists_cons_of_ne_nil (List.splitOnP_ne_nil isSep text)
        rw [hsplit, List.modifyHead_cons] at h
        rcases List.mem_cons.mp h with rfl | h
        · exact (ih (hsplit ▸ List.mem_cons_self)).cons_cons x
        · exact (ih (hsplit ▸ List.mem_cons_of_mem _ h)).cons x

theorem mem_of_mem_fields {text part : List UInt8} (h : part ∈ fields isSep text) {c : UInt8} (hc : c ∈ part) :
    c ∈ text := (sublist_of_mem_splitOnP (List.mem_of_mem_filter h)).subset hc

/-- What stands in a text that is joined stands in a part of it, or between two. -/
theorem mem_intercalate {c : UInt8} (h : c ∈ [sep].intercalate parts) : c = sep ∨ ∃ part ∈ parts, c ∈ part := by
  induction parts with
  | nil => cases h
  | cons part parts ih =>
      cases parts with
      | nil =>
          rw [List.intercalate_singleton] at h
          exact Or.inr ⟨part, List.mem_cons_self, h⟩
      | cons next parts =>
          rw [List.intercalate_cons_cons, List.append_assoc, List.singleton_append] at h
          rcases List.mem_append.mp h with h | h
          · exact Or.inr ⟨part, List.mem_cons_self, h⟩
          · rcases List.mem_cons.mp h with rfl | h
            · exact Or.inl rfl
            · rcases ih h with rfl | ⟨part', hpart', hc⟩
              · exact Or.inl rfl
              · exact Or.inr ⟨part', List.mem_cons_of_mem _ hpart', hc⟩

theorem notMem_of_mem_splitOn {text part : List UInt8} (h : part ∈ text.splitOn sep) : sep ∉ part := fun hmem => by
  rw [List.splitOn_eq_splitOnP] at h
  have hne := eq_false_of_mem_splitOnP h sep hmem
  simp at hne

/-- A text begins as its first part does. -/
theorem head?_intercalate {part : List UInt8} (hne : part ≠ []) :
    ([sep].intercalate (part :: parts)).head? = part.head? := by
  obtain ⟨c, rest, rfl⟩ := List.exists_cons_of_ne_nil hne
  cases parts with
  | nil => rw [List.intercalate_singleton]
  | cons next parts => rw [List.intercalate_cons_cons]; rfl

end Fields

/-! ### Numerals -/

/-- The value of a digit, where letters go on after nine. -/
def digitVal (base : Nat) (c : UInt8) : Option Nat :=
  (if 48 ≤ c ∧ c ≤ 57 then some (c.toNat - 48)
    else if 97 ≤ c ∧ c ≤ 122 then some (c.toNat - 87)
    else if 65 ≤ c ∧ c ≤ 90 then some (c.toNat - 55)
    else none).filter (· < base)

def underscore : UInt8 := 95

/-- The number that a numeral stands for. -/
def readNat (base : Nat) (text : List UInt8) : Option Nat :=
  if (text.splitOn underscore).any List.isEmpty then none
  else ((text.splitOn underscore).flatten.mapM (digitVal base)).map (List.foldl (fun n v => n * base + v) 0)

def decimal (n : Nat) : List UInt8 :=
  if n = 0 then [48] else (Nat.digits 10 n).reverse.map fun v => UInt8.ofNat (48 + v)

theorem toNat_digit {v : Nat} (hv : v < 10) : (UInt8.ofNat (48 + v)).toNat = 48 + v := by
  rw [UInt8.toNat_ofNat']
  omega

theorem digitVal_digit {v : Nat} (hv : v < 10) : digitVal 10 (UInt8.ofNat (48 + v)) = some v := by
  have htoNat := toNat_digit hv
  have hrange : 48 ≤ UInt8.ofNat (48 + v) ∧ UInt8.ofNat (48 + v) ≤ 57 := by
    constructor
    · rw [UInt8.le_iff_toNat_le, htoNat]
      exact Nat.le_add_right _ _
    · rw [UInt8.le_iff_toNat_le, htoNat]
      have hnine : (57 : UInt8).toNat = 57 := rfl
      omega
  rw [digitVal, if_pos hrange, htoNat, Nat.add_sub_cancel_left, Option.filter_some, if_pos (by simpa using hv)]

/-- A numeral consists of digits. -/
theorem mem_decimal {n : Nat} {c : UInt8} (h : c ∈ decimal n) : ∃ v < 10, c = UInt8.ofNat (48 + v) := by
  rw [decimal] at h
  split_ifs at h with hn
  · exact ⟨0, by decide, List.mem_singleton.mp h⟩
  · obtain ⟨v, hv, rfl⟩ := List.mem_map.mp h
    exact ⟨v, Nat.digits_lt_base' (List.mem_reverse.mp hv), rfl⟩

theorem range_of_mem_decimal {n : Nat} {c : UInt8} (h : c ∈ decimal n) : 48 ≤ c.toNat ∧ c.toNat ≤ 57 := by
  obtain ⟨v, hv, rfl⟩ := mem_decimal h
  rw [toNat_digit hv]
  omega

theorem decimal_ne_nil (n : Nat) : decimal n ≠ [] := by
  rw [decimal]
  split_ifs with hn
  · exact List.cons_ne_nil _ _
  · simpa using Nat.digits_ne_nil_iff_ne_zero.mpr hn

/-- Only zero begins with a zero. -/
theorem head?_decimal {n : Nat} (h : (decimal n).head? = some 48) : n = 0 := by
  by_contra hn
  have hdigits : Nat.digits 10 n ≠ [] := Nat.digits_ne_nil_iff_ne_zero.mpr hn
  have hlast := Nat.getLast_digit_ne_zero 10 hn
  have hlt : (Nat.digits 10 n).getLast hdigits < 10 := Nat.digits_lt_base' (List.getLast_mem hdigits)
  rw [decimal, if_neg hn, List.head?_map, List.head?_reverse, List.getLast?_eq_getLast_of_ne_nil hdigits,
    Option.map_some, Option.some.injEq] at h
  have htoNat := congrArg UInt8.toNat h
  rw [toNat_digit hlt] at htoNat
  have hzero : (48 : UInt8).toNat = 48 := rfl
  omega

/-- What is written is read back. -/
theorem readNat_decimal (n : Nat) : readNat 10 (decimal n) = some n := by
  have hsplit : (decimal n).splitOn underscore = [decimal n] := List.splitOn_eq_singleton fun hmem => by
    have hrange := range_of_mem_decimal hmem
    have hunder : underscore.toNat = 95 := rfl
    omega
  have hmap : ∀ l : List Nat, (∀ v ∈ l, v < 10) →
      (l.map fun v => UInt8.ofNat (48 + v)).mapM (digitVal 10) = some l := by
    intro l hl
    induction l with
    | nil => rfl
    | cons v l ih =>
        rw [List.map_cons, List.mapM_cons, digitVal_digit (hl v List.mem_cons_self),
          ih fun v hv => hl v (List.mem_cons_of_mem _ hv)]
        rfl
  rw [readNat, hsplit, if_neg (by simp [decimal_ne_nil]), List.flatten_singleton, decimal]
  split_ifs with hn
  · rw [hn]
    rfl
  · rw [hmap _ fun v hv => Nat.digits_lt_base' (List.mem_reverse.mp hv), Option.map_some, List.foldl_reverse]
    have hfold := Nat.ofDigits_eq_foldr 10 (Nat.digits 10 n)
    rw [Nat.ofDigits_digits] at hfold
    refine congrArg some (Eq.trans ?_ hfold.symm)
    congr 1
    funext v k
    rw [Nat.mul_comm, Nat.add_comm]
    rfl

end Text
