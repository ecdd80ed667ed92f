import Fs5600.Base.Cancel
import Fs5600.Machine

/-! Paths: splitting at slashes, the lexical resolution of `.` and `..`, and the parent path that the
operations on a parent directory build back from the resolved components. -/

namespace Fs5600

def slash : UInt8 := 47

def dot : CStr := ⟨[46], by decide⟩

def dotdot : CStr := ⟨[46, 46], by decide⟩

/-- `strtok` at one delimiter: the next token and what is left after its delimiter. -/
def strtok (s : CStr) (delim : UInt8) : Option (CStr × CStr) :=
  let rest := s.bytes.dropWhile (· == delim)
  have hrest : (0 : UInt8) ∉ rest := fun h => s.nulFree ((List.dropWhile_sublist _).subset h)
  if rest = [] then none
  else some
    (⟨rest.takeWhile (· != delim), fun h => hrest ((List.takeWhile_sublist _).subset h)⟩,
      ⟨(rest.dropWhile (· != delim)).drop 1, fun h =>
        hrest ((List.dropWhile_sublist _).subset ((List.drop_sublist _ _).subset h))⟩)

/-- The loop of `pathparse`, with the number of places left in `components`. -/
def pathparseLoop : Nat → CStr → List CStr
  | 0, _ => []
  | left + 1, s =>
      match strtok s slash with
      | none => []
      | some (token, rest) => token :: pathparseLoop left rest

/-- `pathparse`: the components of a path, at most `MAX_PATH_LEN` of them. -/
def pathparse (path : CStr) : List CStr := pathparseLoop maxPathLen path

/-- One turn of the loop of `resolve_path`. -/
def resolveStep (resolved : List CStr) (component : CStr) : List CStr :=
  if component = dot then resolved
  else if component = dotdot then resolved.dropLast
  else resolved ++ [component]

def resolvePath (components : List CStr) : List CStr := components.foldl resolveStep []

/-- The components with a slash between each two, as the loop of `strcat` calls writes them. -/
def strcatLoop : List CStr → List UInt8
  | [] => []
  | [component] => component.bytes
  | component :: rest => component.bytes ++ slash :: strcatLoop rest

theorem nul_notMem_strcatLoop : ∀ components : List CStr, (0 : UInt8) ∉ strcatLoop components
  | [] => List.not_mem_nil
  | [component] => component.nulFree
  | component :: next :: rest => by
      have hslash : (0 : UInt8) ≠ slash := by decide
      simp only [strcatLoop, List.mem_append, List.mem_cons, hslash, false_or, not_or]
      exact ⟨component.nulFree, nul_notMem_strcatLoop (next :: rest)⟩

/-- The path of a list of components: a slash, then the components joined by slashes. -/
def joinPath (components : List CStr) : CStr where
  bytes := slash :: strcatLoop components
  nulFree := by
    have hslash : (0 : UInt8) ≠ slash := by decide
    simp only [List.mem_cons, hslash, false_or]
    exact nul_notMem_strcatLoop components

/-- `resolved_components[resolved_count - 1]` -/
def lastComponent (resolved : List CStr) : Call CStr :=
  match resolved.getLast? with
  | some name => pure name
  | none => fault

/-- The parent path in its buffer: all resolved components but the last. -/
def parentPath (resolved : List CStr) : Call CStr := do
  let path := joinPath resolved.dropLast
  if path.strlen + 1 ≤ (← Command.ask).limits.parentPath then pure path else fault

/-! ### Splitting what was joined -/

/-- What a path can have between two slashes. -/
def IsComponent (component : CStr) : Prop := component.bytes ≠ [] ∧ slash ∉ component.bytes

theorem isComponent_of_strtok {s token rest : CStr} (h : strtok s slash = some (token, rest)) :
    IsComponent token := by
  simp only [strtok] at h
  split at h
  · cases h
  · rename_i hne
    obtain ⟨rfl, -⟩ := Prod.mk.inj (Option.some.inj h)
    refine ⟨fun hnil => ?_, fun hmem => ?_⟩
    · rcases hrest : s.bytes.dropWhile (· == slash) with _ | ⟨head, tail⟩
      · exact hne hrest
      · have hhead := List.head_dropWhile_not (· == slash) (l := s.bytes) hne
        simp only [hrest, List.head_cons, beq_eq_false_iff_ne, ne_eq] at hhead
        simp only [hrest, List.takeWhile_cons, bne_iff_ne, ne_eq, hhead, not_false_eq_true, if_true,
          reduceCtorEq] at hnil
    · have := List.mem_takeWhile_imp hmem
      simp at this

theorem isComponent_of_mem_pathparse {path component : CStr} (h : component ∈ pathparse path) :
    IsComponent component := by
  suffices ∀ left s, component ∈ pathparseLoop left s → IsComponent component from this _ _ h
  intro left
  induction left with
  | zero =>
      intro s hmem
      cases hmem
  | succ left ih =>
      intro s hmem
      unfold pathparseLoop at hmem
      rcases htok : strtok s slash with _ | ⟨token, rest⟩
      · simp [htok] at hmem
      · simp only [htok, List.mem_cons] at hmem
        rcases hmem with rfl | hmem
        · exact isComponent_of_strtok htok
        · exact ih rest hmem

/-- `strtok` splits off a component at the front, with slashes before it and one after it. -/
theorem strtok_of_bytes {s component : CStr} {slashes tail : List UInt8} (hcomponent : IsComponent component)
    (hslashes : ∀ b ∈ slashes, b = slash) (hs : s.bytes = slashes ++ (component.bytes ++ tail))
    (htail : tail = [] ∨ ∃ rest, tail = slash :: rest) :
    ∃ rest, strtok s slash = some (component, rest) ∧ rest.bytes = tail.drop 1 := by
  obtain ⟨hne, hfree⟩ := hcomponent
  have hdrop : s.bytes.dropWhile (· == slash) = component.bytes ++ tail := by
    rw [hs, List.dropWhile_append_of_pos (by simpa using hslashes)]
    rcases hbytes : component.bytes with _ | ⟨head, rest⟩
    · exact absurd hbytes hne
    · have hhead : head ≠ slash := fun heq => hfree (by rw [hbytes, heq]; exact List.mem_cons_self)
      simp [hhead]
  have hall : ∀ b ∈ component.bytes, (b != slash) = true := fun b hb => by
    simp only [bne_iff_ne, ne_eq]
    exact fun heq => hfree (heq ▸ hb)
  have htake : (component.bytes ++ tail).takeWhile (· != slash) = component.bytes := by
    rw [List.takeWhile_append_of_pos hall]
    rcases htail with rfl | ⟨rest, rfl⟩ <;> simp
  have hskip : (component.bytes ++ tail).dropWhile (· != slash) = tail := by
    rw [List.dropWhile_append_of_pos hall]
    rcases htail with rfl | ⟨rest, rfl⟩ <;> simp
  simp only [strtok, hdrop]
  rw [if_neg (by simp [hne])]
  exact ⟨_, congrArg some (Prod.ext (CStr.ext htake) rfl), congrArg (List.drop 1) hskip⟩

theorem strtok_eq_none {s : CStr} (hs : s.bytes = [] ∨ s.bytes = [slash]) : strtok s slash = none := by
  rcases hs with hs | hs <;> simp [strtok, hs]

/-- Splitting the joined components gives them back, as many as there are places for. -/
theorem pathparseLoop_of_bytes {components : List CStr} (h : ∀ c ∈ components, IsComponent c) {left : Nat}
    {s : CStr} {slashes : List UInt8} (hslashes : slashes = [] ∨ slashes = [slash])
    (hs : s.bytes = slashes ++ strcatLoop components) : pathparseLoop left s = components.take left := by
  induction components generalizing left s slashes with
  | nil =>
      have hnone : strtok s slash = none := strtok_eq_none (by simpa [hs, strcatLoop] using hslashes)
      cases left with
      | zero => rfl
      | succ left => rw [pathparseLoop, hnone, List.take_nil]
  | cons component rest ih =>
      cases left with
      | zero => rfl
      | succ left =>
          have hall : ∀ b ∈ slashes, b = slash := by rcases hslashes with rfl | rfl <;> simp
          cases rest with
          | nil =>
              have hbytes : s.bytes = slashes ++ (component.bytes ++ []) := by rw [hs, strcatLoop, List.append_nil]
              obtain ⟨after, htok, hafter⟩ := strtok_of_bytes (h component List.mem_cons_self) hall hbytes
                (Or.inl rfl)
              have hend : pathparseLoop left after = [] := by
                cases left with
                | zero => rfl
                | succ left => rw [pathparseLoop, strtok_eq_none (Or.inl hafter)]
              rw [pathparseLoop, htok]
              simp only [hend, List.take_succ_cons, List.take_nil]
          | cons next rest =>
              obtain ⟨after, htok, hafter⟩ := strtok_of_bytes (h component List.mem_cons_self) hall hs
                (Or.inr ⟨_, rfl⟩)
              rw [pathparseLoop, htok]
              simp only [List.take_succ_cons]
              rw [@ih (fun c hc => h c (List.mem_cons_of_mem _ hc)) left after [] (Or.inl rfl) hafter]

/-- The parent path is split into the components it was built from. -/
theorem pathparse_joinPath {components : List CStr} (h : ∀ c ∈ components, IsComponent c) :
    pathparse (joinPath components) = components.take maxPathLen :=
  pathparseLoop_of_bytes h (Or.inr rfl) rfl

theorem pathparse_joinPath_of_length_le {components : List CStr} (h : ∀ c ∈ components, IsComponent c)
    (hlength : components.length ≤ maxPathLen) : pathparse (joinPath components) = components := by
  rw [pathparse_joinPath h, List.take_of_length_le hlength]

theorem pathparse_length_le (path : CStr) : (pathparse path).length ≤ maxPathLen := by
  suffices ∀ left s, (pathparseLoop left s).length ≤ left from this _ _
  intro left
  induction left with
  | zero => exact fun s => Nat.le_refl 0
  | succ left ih =>
      intro s
      unfold pathparseLoop
      split
      · exact Nat.zero_le _
      · exact Nat.succ_le_succ (ih _)

/-! ### Paths without dots -/

/-- A name, and neither `.` nor `..`. -/
def IsName (component : CStr) : Prop := component ≠ dot ∧ component ≠ dotdot

theorem resolveStep_of_isName {component : CStr} (h : IsName component) (resolved : List CStr) :
    resolveStep resolved component = resolved ++ [component] := by
  rw [resolveStep, if_neg h.1, if_neg h.2]

/-- What a component does to the resolved components. -/
def componentAction (component : CStr) : Cancel.Action :=
  if component = dot then .skip else if component = dotdot then .pop else .push

theorem componentAction_eq_push {component : CStr} : componentAction component = .push ↔ IsName component := by
  unfold componentAction IsName
  split_ifs with hdot hdotdot
  · exact iff_of_false (by simp) fun h => h.1 hdot
  · exact iff_of_false (by simp) fun h => h.2 hdotdot
  · exact iff_of_true rfl ⟨hdot, hdotdot⟩

/-- The resolved components are a stack. -/
theorem resolvePath_eq_run (components : List CStr) : resolvePath components = Cancel.run componentAction components := by
  have hstep : resolveStep = Cancel.step componentAction := by
    funext resolved component
    unfold resolveStep Cancel.step componentAction
    split_ifs <;> rfl
  rw [resolvePath, Cancel.run, hstep]

/-- The first part of a list can be resolved first. -/
theorem resolvePath_append (xs ys : List CStr) : resolvePath (xs ++ ys) = resolvePath (resolvePath xs ++ ys) := by
  simp only [resolvePath_eq_run]
  exact Cancel.run_append xs ys

theorem resolvePath_of_isName {components : List CStr} (h : ∀ c ∈ components, IsName c) :
    resolvePath components = components := by
  rw [resolvePath_eq_run]
  exact Cancel.run_of_push fun c hc => componentAction_eq_push.mpr (h c hc)

theorem mem_resolvePath {components : List CStr} {component : CStr}
    (h : component ∈ resolvePath components) : component ∈ components ∧ IsName component := by
  rw [resolvePath_eq_run] at h
  exact (Cancel.mem_run h).imp_right componentAction_eq_push.mp

theorem resolvePath_length_le (components : List CStr) :
    (resolvePath components).length ≤ components.length := by
  rw [resolvePath_eq_run]
  exact Cancel.run_length_le components

/-- A path of one to nine components without dots. -/
structure Plain (path : CStr) : Prop where
  nonempty : pathparse path ≠ []
  short : (pathparse path).length < maxPathLen
  names : ∀ c ∈ pathparse path, IsName c

theorem Plain.resolvePath {path : CStr} (h : Plain path) :
    resolvePath (pathparse path) = pathparse path := resolvePath_of_isName h.names

instance (component : CStr) : Decidable (IsComponent component) := inferInstanceAs (Decidable (_ ∧ _))

instance (component : CStr) : Decidable (IsName component) := inferInstanceAs (Decidable (_ ∧ _))

/-- Names joined by slashes are a path without dots. -/
theorem plain_joinPath {names : List CStr} (h : ∀ c ∈ names, IsComponent c ∧ IsName c) (hne : names ≠ [])
    (hshort : names.length < maxPathLen) : Plain (joinPath names) := by
  have hparse := pathparse_joinPath_of_length_le (fun c hc => (h c hc).1) hshort.le
  exact ⟨by rwa [hparse], by rwa [hparse], by rw [hparse]; exact fun c hc => (h c hc).2⟩

end Fs5600
