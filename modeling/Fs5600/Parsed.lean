import Fs5600.Base.Traverse
import Fs5600.GenDiskInput
import Fs5600.Generated

/-! Descriptions as texts. The text of a description is read as this description, and no text is read as a description
that cannot be written. -/

namespace Fs5600.GenDisk

open Text Traverse

/-! ### Numerals with signs -/

def decimalInt (n : Int) : List UInt8 := if n < 0 then dash :: decimal n.natAbs else decimal n.natAbs

section Numerals

variable {n : Int} {c : UInt8}

theorem decimalInt_natCast (n : Nat) : decimalInt n = decimal n := by
  rw [decimalInt, if_neg (by omega), Int.natAbs_natCast]

theorem mem_decimalInt (h : c ∈ decimalInt n) : c = dash ∨ 48 ≤ c.toNat ∧ c.toNat ≤ 57 := by
  rw [decimalInt] at h
  split_ifs at h
  · rcases List.mem_cons.mp h with rfl | h
    · exact Or.inl rfl
    · exact Or.inr (range_of_mem_decimal h)
  · exact Or.inr (range_of_mem_decimal h)

theorem decimalInt_ne_nil (n : Int) : decimalInt n ≠ [] := by
  rw [decimalInt]
  split_ifs
  · exact List.cons_ne_nil _ _
  · exact decimal_ne_nil _

/-- No sign and no separator stands in a numeral. -/
theorem not_mem_decimalInt (hc : c ≠ dash) (hrange : c.toNat < 48 ∨ 57 < c.toNat) : c ∉ decimalInt n := by
  intro h
  rcases mem_decimalInt h with heq | hdigit
  · exact hc heq
  · omega

theorem isSpace_of_mem_decimalInt (h : c ∈ decimalInt n) : isSpace c = false := by
  refine decide_eq_false ?_
  simp only [UInt8.le_iff_toNat_le]
  have hconst : (9 : UInt8).toNat = 9 ∧ (13 : UInt8).toNat = 13 ∧ (28 : UInt8).toNat = 28 ∧ (32 : UInt8).toNat = 32 :=
    ⟨rfl, rfl, rfl, rfl⟩
  rcases mem_decimalInt h with rfl | hdigit
  · decide
  · omega

theorem signed_decimalInt {read : List UInt8 → Option Nat} (hread : ∀ k, read (decimal k) = some k) (n : Int) :
    signed read (decimalInt n) = some n := by
  have hhead : ∀ c : UInt8, c.toNat < 48 → ∀ k, (decimal k).head? ≠ some c := fun c hc k hhead => by
    have hrange := range_of_mem_decimal (List.mem_of_mem_head? hhead)
    omega
  rw [decimalInt]
  split_ifs with hneg
  · rw [signed, List.head?_cons, if_pos rfl, List.tail_cons, hread, Option.map_some]
    refine congrArg some ?_
    simp only [Int.ofNat_eq_natCast]
    omega
  · rw [signed, if_neg (hhead dash (by decide) _), if_neg (hhead 43 (by decide) _), hread, Option.map_some]
    exact congrArg some (Int.natAbs_of_nonneg (not_lt.mp hneg))

theorem readPrefixed_decimal (k : Nat) : readPrefixed (decimal k) = some k := by
  rw [readPrefixed]
  by_cases hhead : (decimal k).head? = some 48
  · rw [if_pos hhead, head?_decimal hhead]
    rfl
  · rw [if_neg hhead, readNat_decimal]

theorem readInt_decimalInt (n : Int) : readInt (decimalInt n) = .ok n := by
  rw [readInt, signed_decimalInt readNat_decimal]
  rfl

theorem readInt0_decimalInt (n : Int) : readInt0 (decimalInt n) = .ok n := by
  rw [readInt0, signed_decimalInt readPrefixed_decimal]
  rfl

theorem decimalInt_injective : Function.Injective decimalInt := fun n m h =>
  Except.ok.inj ((readInt_decimalInt n).symm.trans ((congrArg readInt h).trans (readInt_decimalInt m)))

end Numerals

/-! ### The text of a description -/

def space : UInt8 := 32

def joined (parts : List (List UInt8)) : List UInt8 := [space].intercalate parts

/-- A symbol for a number: the number itself. -/
def symbol (n : Int) : List UInt8 := dollar :: decimalInt n

def symbolLine (n : Int) : List UInt8 := joined [symbol n, decimalInt n]

/-- The values of a line that must be symbols. They are not read as numbers. -/
def File.values (f : File) : List Int := [f.uid, f.gid, f.mode, f.ctime, f.mtime]

/-- The nine fields of both kinds of lines. The name is only printed. -/
def File.fields (f : File) : List (List UInt8) :=
  [decimalInt f.inum, [slash], symbol f.uid, symbol f.gid, symbol f.mode, symbol f.ctime, symbol f.mtime,
    decimalInt f.size, [comma].intercalate (f.blocks.map decimal)]

def Entry.field (entry : Entry) : List UInt8 :=
  if entry.valid then entry.name.bytes ++ comma :: decimalInt entry.num else dash :: entry.name.bytes

/-- The line of a file or directory, behind lines for its symbols. -/
def Item.text : Item → List (List UInt8)
  | .file f => f.values.map symbolLine ++ [joined (fileWord :: f.fields)]
  | .dir d => d.values.map symbolLine ++ [joined (dirWord :: (d.fields ++ d.entries.map Entry.field))]

def Description.text (d : Description) : List (List UInt8) :=
  joined [sizeWord, decimalInt d.nblocks] :: d.items.flatMap Item.text

/-- The name of an entry is a field, or a part of one. -/
structure WritableEntry (valid : Bool) (name : List UInt8) (num : Int) : Prop where
  space : ∀ c ∈ name, isSpace c = false
  comma : valid = true → comma ∉ name
  head : valid = true → name.head? ≠ some dash ∧ name.head? ≠ some dollar
  num : valid = false → num = 0

abbrev Entry.Writable (entry : Entry) : Prop := WritableEntry entry.valid entry.name.bytes entry.num

/-- All lines can be written: they have blocks, and the names of their entries are no other fields. -/
structure Writable (d : Description) : Prop where
  blocks : ∀ item ∈ d.items, item.common.blocks ≠ []
  entries : ∀ dir ∈ d.dirs, ∀ entry ∈ dir.entries, entry.Writable

section Lines

variable {input : Input} {parts : List (List UInt8)} {n : Int}

/-- A field that is not empty and has no white space. -/
def IsField (part : List UInt8) : Prop := part ≠ [] ∧ ∀ c ∈ part, isSpace c = false

theorem isField_decimalInt (n : Int) : IsField (decimalInt n) :=
  ⟨decimalInt_ne_nil n, fun _ => isSpace_of_mem_decimalInt⟩

theorem isField_symbol (n : Int) : IsField (symbol n) := by
  refine ⟨List.cons_ne_nil _ _, fun c hc => ?_⟩
  rcases List.mem_cons.mp hc with rfl | hc
  · decide
  · exact isSpace_of_mem_decimalInt hc

theorem fields_joined (h : ∀ part ∈ parts, IsField part) : Text.fields isSpace (joined parts) = parts :=
  fields_intercalate (by decide) (fun part hpart => (h part hpart).1) fun part hpart => (h part hpart).2

theorem readLine_symbolLine (input : Input) (n : Int) : readLine input (symbolLine n) =
    .ok { input with syms := Function.update input.syms (symbol n) (some n) } := by
  have hfields : Text.fields isSpace (symbolLine n) = [symbol n, decimalInt n] := fields_joined (by
    simp only [List.forall_mem_cons, List.not_mem_nil, false_implies, implies_true, and_true]
    exact ⟨isField_symbol n, isField_decimalInt n⟩)
  have hhead : (symbolLine n).head? = some dollar := head?_intercalate (isField_symbol n).1
  rw [readLine, hfields]
  dsimp only
  rw [hhead, if_neg (by decide), if_pos rfl, readInt0_decimalInt]
  rfl

/-- After lines for symbols these and all that were right before are right. -/
theorem read_symbolLines (values : List Int) (input : Input) :
    ∃ syms, (values.map symbolLine).foldlM readLine input = .ok { input with syms := syms } ∧
      (∀ n ∈ values, syms (symbol n) = some n) ∧ ∀ n, input.syms (symbol n) = some n → syms (symbol n) = some n := by
  induction values generalizing input with
  | nil => exact ⟨input.syms, rfl, by simp, fun _ h => h⟩
  | cons m values ih =>
      obtain ⟨syms, hread, hvalues, hkeep⟩ := ih { input with syms := Function.update input.syms (symbol m) (some m) }
      refine ⟨syms, ?_, ?_, fun n hn => hkeep n ?_⟩
      · rw [List.map_cons, List.foldlM_cons, readLine_symbolLine]
        exact hread
      · exact List.forall_mem_cons.mpr ⟨hkeep m (Function.update_self _ _ _), hvalues⟩
      · by_cases heq : symbol n = symbol m
        · obtain rfl := decimalInt_injective (List.cons.inj heq).2
          exact Function.update_self _ _ _
        · exact (Function.update_of_ne heq _ _).trans hn

/-! ### Lines for files and directories -/

/-- The values that stand in the fields of a line, behind the word for its kind. -/
def File.read (f : File) : List Value :=
  [.text (decimalInt f.inum), .text [slash], .int f.uid, .int f.gid, .int f.mode, .int f.ctime, .int f.mtime,
    .text (decimalInt f.size), .text ([comma].intercalate (f.blocks.map decimal))]

theorem value_text {field : List UInt8} (h : field.head? ≠ some dollar) (input : Input) :
    input.value field = .ok (.text field) := if_neg h

theorem value_symbol (h : input.syms (symbol n) = some n) : input.value (symbol n) = .ok (.int n) := by
  rw [Input.value, if_pos (show (symbol n).head? = some dollar from rfl), h]
  rfl

theorem head?_decimalInt (n : Int) : (decimalInt n).head? ≠ some dollar := fun h =>
  not_mem_decimalInt (by decide) (by decide) (List.mem_of_mem_head? h)

theorem comma_notMem_decimal (k : Nat) : comma ∉ decimal k := by
  rw [← decimalInt_natCast]
  exact not_mem_decimalInt (by decide) (by decide)

/-- The numbers of blocks that are joined with commas are split again. -/
theorem splitOn_blocks {blocks : List Nat} (hne : blocks ≠ []) :
    ([comma].intercalate (blocks.map decimal)).splitOn comma = blocks.map decimal := by
  refine List.splitOn_intercalate comma (fun l hl => ?_) (by simpa using hne)
  obtain ⟨k, -, rfl⟩ := List.mem_map.mp hl
  exact comma_notMem_decimal k

theorem mem_intercalate_blocks {blocks : List Nat} {c : UInt8} (h : c ∈ [comma].intercalate (blocks.map decimal)) :
    c = comma ∨ ∃ k, c ∈ decimal k := by
  induction blocks with
  | nil => cases h
  | cons k blocks ih =>
      cases blocks with
      | nil => exact Or.inr ⟨k, by simpa using h⟩
      | cons k' blocks =>
          rw [List.map_cons, List.map_cons, List.intercalate_cons_cons, List.append_assoc, List.singleton_append] at h
          rcases List.mem_append.mp h with h | h
          · exact Or.inr ⟨k, h⟩
          · rcases List.mem_cons.mp h with rfl | h
            · exact Or.inl rfl
            · exact ih h

theorem isField_blocks {blocks : List Nat} (hne : blocks ≠ []) :
    IsField ([comma].intercalate (blocks.map decimal)) := by
  constructor
  · intro hnil
    have hsplit := splitOn_blocks hne
    rw [hnil] at hsplit
    obtain ⟨k, rest, rfl⟩ := List.exists_cons_of_ne_nil hne
    exact decimal_ne_nil k (List.cons.inj hsplit).1.symm
  · intro c hc
    rcases mem_intercalate_blocks hc with rfl | ⟨k, hk⟩
    · decide
    · rw [← decimalInt_natCast] at hk
      exact isSpace_of_mem_decimalInt hk

theorem toInts_blocks {blocks : List Nat} (hne : blocks ≠ []) :
    (Value.text ([comma].intercalate (blocks.map decimal))).toInts = .ok (blocks.map Int.ofNat) := by
  rw [Value.toInts, splitOn_blocks hne]
  refine mapM_map_ok fun k _ => ?_
  rw [← decimalInt_natCast, readInt_decimalInt]
  rfl

theorem head?_blocks (blocks : List Nat) : ([comma].intercalate (blocks.map decimal)).head? ≠ some dollar := fun h => by
  rcases mem_intercalate_blocks (List.mem_of_mem_head? h) with heq | ⟨k, hk⟩
  · exact absurd heq (by decide)
  · rw [← decimalInt_natCast] at hk
    exact not_mem_decimalInt (by decide) (by decide) hk

section File

variable {f : File}

theorem isField_fields (hne : f.blocks ≠ []) : ∀ part ∈ f.fields, IsField part := by
  have hslash : IsField [slash] := ⟨List.cons_ne_nil _ _, by decide +kernel⟩
  simp only [File.fields, List.forall_mem_cons, List.not_mem_nil, false_implies, implies_true, and_true]
  exact ⟨isField_decimalInt _, hslash, isField_symbol _, isField_symbol _, isField_symbol _, isField_symbol _,
    isField_symbol _, isField_decimalInt _, isField_blocks hne⟩

/-- The symbols of the fields are replaced. -/
theorem values_fields (hsyms : ∀ n ∈ f.values, input.syms (symbol n) = some n) :
    f.fields.mapM input.value = .ok f.read := by
  simp only [File.values, List.forall_mem_cons, List.not_mem_nil, false_implies, implies_true, and_true] at hsyms
  obtain ⟨huid, hgid, hmode, hctime, hmtime⟩ := hsyms
  have hslash : input.value [slash] = .ok (.text [slash]) := value_text (by decide) input
  exact mapM_of_forall₂ (.cons (value_text (head?_decimalInt _) input) (.cons hslash (.cons (value_symbol huid)
    (.cons (value_symbol hgid) (.cons (value_symbol hmode) (.cons (value_symbol hctime) (.cons (value_symbol hmtime)
      (.cons (value_text (head?_decimalInt _) input) (.cons (value_text (head?_blocks _) input) .nil)))))))))

theorem readCommon_read (hne : f.blocks ≠ []) :
    readCommon (.text (decimalInt f.inum)) (.int f.uid) (.int f.gid) (.int f.mode) (.int f.ctime) (.int f.mtime)
      (.text (decimalInt f.size)) (.text ([comma].intercalate (f.blocks.map decimal))) = .ok (.of f) := by
  rw [readCommon, Value.toInt, readInt_decimalInt, Value.toInt, readInt_decimalInt, toInts_blocks hne]
  rfl

end File

section Entry

variable {entry : Entry}

theorem isField_field (h : entry.Writable) : IsField entry.field := by
  rw [Entry.field]
  split_ifs
  · refine ⟨by simp, fun c hc => ?_⟩
    rcases List.mem_append.mp hc with hc | hc
    · exact h.space c hc
    · rcases List.mem_cons.mp hc with rfl | hc
      · decide
      · exact isSpace_of_mem_decimalInt hc
  · refine ⟨List.cons_ne_nil _ _, fun c hc => ?_⟩
    rcases List.mem_cons.mp hc with rfl | hc
    · decide
    · exact h.space c hc

theorem head?_field (hvalid : entry.valid = true) {c : UInt8} (hcomma : c ≠ comma)
    (hhead : entry.name.bytes.head? ≠ some c) : entry.field.head? ≠ some c := by
  rw [Entry.field, if_pos hvalid]
  cases hname : entry.name.bytes with
  | nil => exact fun heq => hcomma (Option.some.inj heq).symm
  | cons b rest =>
      rw [hname] at hhead
      exact hhead

/-- The entry is a field with a dash in front, if it is not valid. -/
theorem field_invalid (hvalid : entry.valid = false) : entry.field = dash :: entry.name.bytes := by
  rw [Entry.field, if_neg (by simp [hvalid])]

theorem value_field (h : entry.Writable) : input.value entry.field = .ok (.text entry.field) := by
  refine value_text ?_ input
  cases hvalid : entry.valid with
  | true => exact head?_field hvalid (by decide) (h.head hvalid).2
  | false =>
      rw [field_invalid hvalid]
      exact fun heq => absurd (Option.some.inj heq) (by decide)

/-- An entry is read as it is written. -/
theorem readEntry_field (h : entry.Writable) :
    readEntry (.text entry.field) = .ok (entry.valid, entry.name.bytes, entry.num) := by
  rw [readEntry]
  cases hvalid : entry.valid with
  | true =>
      have hsplit : entry.field.splitOn comma = [entry.name.bytes, decimalInt entry.num] := by
        rw [Entry.field, if_pos hvalid, List.splitOn_append_cons_self_of_not_mem (h.comma hvalid),
          List.splitOn_eq_singleton (not_mem_decimalInt (by decide) (by decide))]
      rw [if_neg (head?_field hvalid (by decide) (h.head hvalid).1), hsplit]
      dsimp only
      rw [readInt_decimalInt]
      rfl
  | false =>
      rw [field_invalid hvalid, if_pos (show (dash :: entry.name.bytes).head? = some dash from rfl), h.num hvalid]
      rfl

end Entry

/-- A line for a file or a directory is read with its symbols replaced. -/
theorem readLine_joined {word : List UInt8} {rest : List Value} (hword : word = fileWord ∨ word = dirWord)
    (hparts : ∀ part ∈ parts, IsField part) (hrest : parts.mapM input.value = .ok rest) :
    readLine input (joined (word :: parts)) = input.addLine (.text word :: rest) := by
  have hfield : IsField word := by
    rcases hword with rfl | rfl
    · exact ⟨by decide, by decide +kernel⟩
    · exact ⟨by decide, by decide +kernel⟩
  have hhead : (joined (word :: parts)).head? = word.head? := head?_intercalate hfield.1
  have hfields : Text.fields isSpace (joined (word :: parts)) = word :: parts :=
    fields_joined (List.forall_mem_cons.mpr ⟨hfield, hparts⟩)
  have hother : word.head? ≠ some hash ∧ word.head? ≠ some dollar ∧ word ≠ sizeWord := by
    rcases hword with rfl | rfl <;> decide
  have hvalue : input.value word = .ok (.text word) := value_text hother.2.1 input
  rw [readLine, hfields]
  dsimp only
  rw [hhead, if_neg hother.1, if_neg hother.2.1, if_neg hother.2.2, List.mapM_cons, hvalue, hrest]
  rfl

end Lines

/-! ### The whole text -/

section Whole

variable {d : Description} {f : File} {dir : Dir}

theorem read_file (hne : f.blocks ≠ []) (input : Input) : ∃ syms, (Item.file f).text.foldlM readLine input =
    .ok { input with syms := syms, files := input.files ++ [.of f] } := by
  obtain ⟨syms, hread, hsyms, -⟩ := read_symbolLines f.values input
  have hline : readLine { input with syms := syms } (joined (fileWord :: f.fields)) = _ :=
    readLine_joined (Or.inl rfl) (isField_fields hne) (values_fields hsyms)
  have hadd : FileLine.read f.read = .ok (.of f) := readCommon_read hne
  refine ⟨syms, ?_⟩
  rw [Item.text, List.foldlM_append, hread, exceptBind_ok, List.foldlM_cons, hline, Input.addLine, if_pos rfl, hadd]
  rfl

theorem read_dir (hne : dir.blocks ≠ []) (hentries : ∀ entry ∈ dir.entries, entry.Writable) (input : Input) :
    ∃ syms, (Item.dir dir).text.foldlM readLine input =
      .ok { input with syms := syms, dirs := input.dirs ++ [.of dir] } := by
  obtain ⟨syms, hread, hsyms, -⟩ := read_symbolLines dir.values input
  have hparts : ∀ part ∈ dir.fields ++ dir.entries.map Entry.field, IsField part := by
    intro part hpart
    rcases List.mem_append.mp hpart with hpart | hpart
    · exact isField_fields hne part hpart
    · obtain ⟨entry, hentry, rfl⟩ := List.mem_map.mp hpart
      exact isField_field (hentries entry hentry)
  have hvalues : (dir.fields ++ dir.entries.map Entry.field).mapM (Input.value { input with syms := syms }) =
      .ok (dir.toFile.read ++ dir.entries.map fun entry => Value.text entry.field) := by
    rw [List.mapM_append, values_fields hsyms, exceptBind_ok,
      mapM_map_ok fun entry hentry => value_field (hentries entry hentry)]
    rfl
  have hline : readLine { input with syms := syms }
      (joined (dirWord :: (dir.fields ++ dir.entries.map Entry.field))) = _ := readLine_joined (Or.inr rfl) hparts hvalues
  have hadd : DirLine.read (dir.toFile.read ++ dir.entries.map fun entry => Value.text entry.field) =
      .ok (.of dir) := by
    have hmap : (dir.entries.map fun entry => Value.text entry.field).mapM readEntry = _ :=
      mapM_map_ok fun entry hentry => readEntry_field (hentries entry hentry)
    change (readCommon _ _ _ _ _ _ _ _ >>= fun line =>
      (dir.entries.map fun entry => Value.text entry.field).mapM readEntry >>= fun entries =>
        .ok (DirLine.mk line entries)) = _
    rw [readCommon_read hne, exceptBind_ok, hmap]
    rfl
  refine ⟨syms, ?_⟩
  rw [Item.text, List.foldlM_append, hread, exceptBind_ok, List.foldlM_cons, hline, Input.addLine,
    if_neg (by decide), if_pos rfl, hadd]
  rfl

theorem read_files {files : List File} (hne : ∀ f ∈ files, f.blocks ≠ []) (input : Input) :
    ∃ syms, (files.flatMap fun f => (Item.file f).text).foldlM readLine input =
      .ok { input with syms := syms, files := input.files ++ files.map .of } := by
  induction files generalizing input with
  | nil => exact ⟨input.syms, by simp; rfl⟩
  | cons f files ih =>
      obtain ⟨hf, hfiles⟩ := List.forall_mem_cons.mp hne
      obtain ⟨syms, hread⟩ := read_file hf input
      obtain ⟨syms', hrest⟩ := ih hfiles { input with syms := syms, files := input.files ++ [.of f] }
      refine ⟨syms', ?_⟩
      rw [List.flatMap_cons, List.foldlM_append, hread, exceptBind_ok, hrest, List.append_assoc]
      rfl

theorem read_dirs {dirs : List Dir}
    (hdirs : ∀ dir ∈ dirs, dir.blocks ≠ [] ∧ ∀ entry ∈ dir.entries, entry.Writable) (input : Input) :
    ∃ syms, (dirs.flatMap fun dir => (Item.dir dir).text).foldlM readLine input =
      .ok { input with syms := syms, dirs := input.dirs ++ dirs.map .of } := by
  induction dirs generalizing input with
  | nil => exact ⟨input.syms, by simp; rfl⟩
  | cons dir dirs ih =>
      obtain ⟨hdir, hrest⟩ := List.forall_mem_cons.mp hdirs
      obtain ⟨syms, hread⟩ := read_dir hdir.1 hdir.2 input
      obtain ⟨syms', hrest⟩ := ih hrest { input with syms := syms, dirs := input.dirs ++ [.of dir] }
      refine ⟨syms', ?_⟩
      rw [List.flatMap_cons, List.foldlM_append, hread, exceptBind_ok, hrest, List.append_assoc]
      rfl

theorem readLine_size (input : Input) (n : Int) :
    readLine input (joined [sizeWord, decimalInt n]) = .ok { input with nblocks := n } := by
  have hword : IsField sizeWord := ⟨by decide, by decide +kernel⟩
  have hfields : Text.fields isSpace (joined [sizeWord, decimalInt n]) = [sizeWord, decimalInt n] := fields_joined (by
    simp only [List.forall_mem_cons, List.not_mem_nil, false_implies, implies_true, and_true]
    exact ⟨hword, isField_decimalInt n⟩)
  have hhead : (joined [sizeWord, decimalInt n]).head? = some 115 := head?_intercalate hword.1
  rw [readLine, hfields]
  dsimp only
  rw [hhead, if_neg (by decide), if_neg (by decide), if_pos rfl, readInt_decimalInt]
  rfl

theorem of_injective : Function.Injective FileLine.of := by
  intro f f' h
  have hinum : f.inum = f'.inum := Int.ofNat.inj (congrArg FileLine.inum h)
  have huid : f.uid = f'.uid := Value.int.inj (congrArg FileLine.uid h)
  have hgid : f.gid = f'.gid := Value.int.inj (congrArg FileLine.gid h)
  have hmode : f.mode = f'.mode := Value.int.inj (congrArg FileLine.mode h)
  have hctime : f.ctime = f'.ctime := Value.int.inj (congrArg FileLine.ctime h)
  have hmtime : f.mtime = f'.mtime := Value.int.inj (congrArg FileLine.mtime h)
  have hsize : f.size = f'.size := congrArg FileLine.size h
  have hblocks : f.blocks = f'.blocks :=
    List.map_injective_iff.mpr (fun _ _ => Int.ofNat.inj) (congrArg FileLine.blocks h)
  cases f
  cases f'
  simp_all only

theorem dirLine_injective : Function.Injective DirLine.of := by
  intro dir dir' h
  have hfile : dir.toFile = dir'.toFile := of_injective (congrArg DirLine.toFileLine h)
  have hentry : Function.Injective fun entry : Entry => (entry.valid, entry.name.bytes, entry.num) := by
    rintro ⟨valid, name, num⟩ ⟨valid', name', num'⟩ heq
    obtain ⟨rfl, hrest⟩ := Prod.mk.inj heq
    obtain ⟨hname, rfl⟩ := Prod.mk.inj hrest
    obtain rfl := CStr.ext hname
    rfl
  have hentries : dir.entries = dir'.entries := List.map_injective_iff.mpr hentry (congrArg DirLine.entries h)
  cases dir
  cases dir'
  simp_all only

/-- What is read is no more than one description. -/
theorem Input.Describes.unique {input : Input} {d' : Description} (h : input.Describes d) (h' : input.Describes d') :
    d' = d := by
  have hnblocks : d'.nblocks = d.nblocks := Int.ofNat.inj (h'.nblocks.symm.trans h.nblocks)
  have hfiles : d'.files = d.files := List.map_injective_iff.mpr of_injective (h'.files.symm.trans h.files)
  have hdirs : d'.dirs = d.dirs := List.map_injective_iff.mpr dirLine_injective (h'.dirs.symm.trans h.dirs)
  cases d
  cases d'
  simp_all only

theorem reads_text (h : Writable d) : ∃ input, readInput d.text = .ok input ∧ input.Describes d := by
  have hfiles : ∀ f ∈ d.files, f.blocks ≠ [] := fun f hf =>
    h.blocks (.file f) (List.mem_append_left _ (List.mem_map_of_mem hf))
  have hdirs : ∀ dir ∈ d.dirs, dir.blocks ≠ [] ∧ ∀ entry ∈ dir.entries, entry.Writable := fun dir hdir =>
    ⟨h.blocks (.dir dir) (mem_items hdir), h.entries dir hdir⟩
  obtain ⟨syms, hread⟩ := read_files hfiles ⟨fun _ => none, [], [], d.nblocks⟩
  obtain ⟨syms', hread'⟩ := read_dirs hdirs ⟨syms, d.files.map .of, [], d.nblocks⟩
  refine ⟨⟨syms', d.files.map .of, d.dirs.map .of, d.nblocks⟩, ?_, ⟨rfl, rfl, rfl⟩⟩
  rw [readInput, Description.text, List.foldlM_cons, readLine_size, exceptBind_ok, Description.items,
    List.flatMap_append, List.foldlM_append, List.flatMap_map, List.flatMap_map, hread, exceptBind_ok]
  exact hread'

/-! ### ASCII -/

theorem lt_of_mem_decimalInt {n : Int} {c : UInt8} (h : c ∈ decimalInt n) : c < 128 := by
  rcases mem_decimalInt h with rfl | hdigit
  · decide
  · rw [UInt8.lt_iff_toNat_lt]
    exact hdigit.2.trans_lt (by decide)

theorem lt_of_mem_symbol {n : Int} {c : UInt8} (h : c ∈ symbol n) : c < 128 := by
  rcases List.mem_cons.mp h with rfl | h
  · decide
  · exact lt_of_mem_decimalInt h

theorem lt_of_mem_joined {parts : List (List UInt8)} (hparts : ∀ part ∈ parts, ∀ c ∈ part, c < 128) {c : UInt8}
    (h : c ∈ joined parts) : c < 128 := by
  rcases mem_intercalate h with rfl | ⟨part, hpart, hc⟩
  · decide
  · exact hparts part hpart c hc

theorem lt_of_mem_fields : ∀ part ∈ f.fields, ∀ c ∈ part, c < 128 := by
  have hblocks : ∀ c ∈ [comma].intercalate (f.blocks.map decimal), c < 128 := fun c hc => by
    rcases mem_intercalate hc with rfl | ⟨part, hpart, hc⟩
    · decide
    · obtain ⟨b, -, rfl⟩ := List.mem_map.mp hpart
      rw [← decimalInt_natCast] at hc
      exact lt_of_mem_decimalInt hc
  simp only [File.fields, List.forall_mem_cons, List.mem_singleton, forall_eq]
  exact ⟨fun _ => lt_of_mem_decimalInt, by decide, fun _ => lt_of_mem_symbol, fun _ => lt_of_mem_symbol,
    fun _ => lt_of_mem_symbol, fun _ => lt_of_mem_symbol, fun _ => lt_of_mem_symbol, fun _ => lt_of_mem_decimalInt,
    hblocks⟩

theorem lt_of_mem_field {entry : Entry} (hname : ∀ c ∈ entry.name.bytes, c < 128) : ∀ c ∈ entry.field, c < 128 := by
  rw [Entry.field]
  split
  · exact List.forall_mem_append.mpr ⟨hname, List.forall_mem_cons.mpr ⟨by decide, fun _ => lt_of_mem_decimalInt⟩⟩
  · exact List.forall_mem_cons.mpr ⟨by decide, hname⟩

/-- The text of names in ASCII is in ASCII. -/
theorem ascii_text (h : d.Ascii) : ∀ line ∈ d.text, ∀ c ∈ line, c < 128 := by
  have hwords : (∀ c ∈ sizeWord, c < 128) ∧ (∀ c ∈ fileWord, c < 128) ∧ ∀ c ∈ dirWord, c < 128 := by decide +kernel
  have hsymbols : ∀ values : List Int, ∀ line ∈ values.map symbolLine, ∀ c ∈ line, c < 128 := fun values line hline => by
    obtain ⟨n, -, rfl⟩ := List.mem_map.mp hline
    exact fun _ => lt_of_mem_joined (by
      simp only [List.forall_mem_cons, List.not_mem_nil, false_implies, implies_true, and_true]
      exact ⟨fun _ => lt_of_mem_symbol, fun _ => lt_of_mem_decimalInt⟩)
  refine List.forall_mem_cons.mpr ⟨fun _ => lt_of_mem_joined ?_, fun line hline => ?_⟩
  · simp only [List.forall_mem_cons, List.not_mem_nil, false_implies, implies_true, and_true]
    exact ⟨hwords.1, fun _ => lt_of_mem_decimalInt⟩
  · obtain ⟨item, hitem, hline⟩ := List.mem_flatMap.mp hline
    rcases mem_items_cases hitem with ⟨f, -, rfl⟩ | ⟨dir, hdir, rfl⟩
    · rcases List.mem_append.mp hline with hline | hline
      · exact hsymbols f.values line hline
      · obtain rfl := List.mem_singleton.mp hline
        exact fun _ => lt_of_mem_joined (List.forall_mem_cons.mpr ⟨hwords.2.1, lt_of_mem_fields⟩)
    · rcases List.mem_append.mp hline with hline | hline
      · exact hsymbols dir.values line hline
      · obtain rfl := List.mem_singleton.mp hline
        refine fun _ => lt_of_mem_joined (List.forall_mem_cons.mpr ⟨hwords.2.2, fun part hpart => ?_⟩)
        rcases List.mem_append.mp hpart with hpart | hpart
        · exact lt_of_mem_fields part hpart
        · obtain ⟨entry, hentry, rfl⟩ := List.mem_map.mp hpart
          exact lt_of_mem_field (h dir hdir entry hentry)

/-- The text of a description is read, as this description and no other one. It is in ASCII where the names are. -/
theorem readInput_text (h : Writable d) :
    (∃ input, readInput d.text = .ok input ∧ ∀ d', input.Describes d' ↔ d' = d) ∧
      (d.Ascii → ∀ line ∈ d.text, ∀ c ∈ line, c < 128) := by
  obtain ⟨input, hread, hdescribes⟩ := reads_text h
  exact ⟨⟨input, hread, fun d' => ⟨hdescribes.unique, fun heq => heq ▸ hdescribes⟩⟩, ascii_text⟩

end Whole

/-! ### What can be read -/

/-- A value that is a text is a field of some letters, and no symbol. -/
def Value.Proper (letter : UInt8 → Prop) : Value → Prop
  | .text s => (∀ c ∈ s, isSpace c = false ∧ letter c) ∧ s.head? ≠ some dollar
  | .int _ => True

/-- All lines that are read can be written, with some letters. -/
structure Input.Proper (letter : UInt8 → Prop) (input : Input) : Prop where
  files : ∀ line ∈ input.files, line.blocks ≠ []
  dirs : ∀ line ∈ input.dirs, line.blocks ≠ [] ∧ ∀ e ∈ line.entries, WritableEntry e.1 e.2.1 e.2.2 ∧ ∀ c ∈ e.2.1, letter c

section Read

variable {letter : UInt8 → Prop} {input input' : Input} {d : Description}

theorem proper_of_value {field : List UInt8} {v : Value} (hfield : ∀ c ∈ field, isSpace c = false ∧ letter c)
    (h : input.value field = .ok v) : v.Proper letter := by
  rw [Input.value] at h
  split_ifs at h with hhead
  · cases hsym : input.syms field with
    | none =>
        rw [hsym] at h
        cases h
    | some n =>
        rw [hsym] at h
        obtain rfl := Except.ok.inj h
        trivial
  · obtain rfl := Except.ok.inj h
    exact ⟨hfield, hhead⟩

theorem blocks_of_readCommon {inum uid gid mode ctime mtime size blocks : Value} {line : FileLine}
    (h : readCommon inum uid gid mode ctime mtime size blocks = .ok line) : line.blocks ≠ [] := by
  obtain ⟨n, -, h⟩ := exceptBind_eq_ok h
  obtain ⟨m, -, h⟩ := exceptBind_eq_ok h
  obtain ⟨numbers, hnumbers, h⟩ := exceptBind_eq_ok h
  obtain rfl := Except.ok.inj h
  cases blocks with
  | int k => cases hnumbers
  | text s =>
      obtain ⟨piece, pieces, hsplit⟩ := List.exists_cons_of_ne_nil (List.splitOn_ne_nil comma s)
      obtain ⟨b, hb, -⟩ := (mapM_eq_ok hnumbers).1 piece (hsplit ▸ List.mem_cons_self)
      exact List.ne_nil_of_mem hb

/-- The part of a text before its first comma. -/
theorem head?_splitOn {s name rest : List UInt8} (hsplit : s.splitOn comma = [name, rest]) {c : UInt8}
    (hc : name.head? = some c) : s.head? = some c := by
  have hjoin : [comma].intercalate (s.splitOn comma) = s := List.intercalate_splitOn comma
  rw [hsplit] at hjoin
  obtain ⟨tail, rfl⟩ : ∃ tail, name = c :: tail := by
    cases name with
    | nil => cases hc
    | cons b tail => exact ⟨tail, by rw [Option.some.inj hc]⟩
  rw [← hjoin]
  rfl

theorem writable_of_readEntry {v : Value} {e : Bool × List UInt8 × Int} (hv : v.Proper letter)
    (h : readEntry v = .ok e) : WritableEntry e.1 e.2.1 e.2.2 ∧ ∀ c ∈ e.2.1, letter c := by
  cases v with
  | int n => cases h
  | text s =>
      obtain ⟨hspace, hdollar⟩ := hv
      rw [readEntry] at h
      split_ifs at h with hdash
      · obtain rfl := Except.ok.inj h
        exact ⟨⟨fun c hc => (hspace c (List.mem_of_mem_tail hc)).1, fun hvalid => absurd hvalid Bool.false_ne_true,
          fun hvalid => absurd hvalid Bool.false_ne_true, fun _ => rfl⟩,
          fun c hc => (hspace c (List.mem_of_mem_tail hc)).2⟩
      · split at h
        · rename_i name num hsplit
          obtain ⟨n, -, h⟩ := exceptBind_eq_ok h
          obtain rfl := Except.ok.inj h
          have hjoin : [comma].intercalate (s.splitOn comma) = s := List.intercalate_splitOn comma
          rw [hsplit] at hjoin
          have hname : ∀ c ∈ name, c ∈ s := fun c hc => hjoin ▸ List.mem_append_left _ hc
          refine ⟨⟨fun c hc => (hspace c (hname c hc)).1, fun _ hcomma => ?_,
            fun _ => ⟨fun hhead => ?_, fun hhead => ?_⟩, fun hvalid => by cases hvalid⟩,
            fun c hc => (hspace c (hname c hc)).2⟩
          · exact notMem_of_mem_splitOn (hsplit ▸ List.mem_cons_self) hcomma
          · exact hdash (head?_splitOn hsplit hhead)
          · exact hdollar (head?_splitOn hsplit hhead)
        · cases h

theorem Input.Proper.addLine (h : input.Proper letter) {values : List Value} (hvalues : ∀ v ∈ values, v.Proper letter)
    (hadd : input.addLine values = .ok input') : input'.Proper letter := by
  cases values with
  | nil => exact Except.ok.inj hadd ▸ h
  | cons v rest =>
      cases v with
      | int n => exact Except.ok.inj hadd ▸ h
      | text word =>
          have hrest : ∀ v ∈ rest, v.Proper letter := fun v hv => hvalues v (List.mem_cons_of_mem _ hv)
          rw [Input.addLine] at hadd
          split_ifs at hadd
          · obtain ⟨line, hline, hadd⟩ := exceptBind_eq_ok hadd
            obtain rfl := Except.ok.inj hadd
            have hblocks : line.blocks ≠ [] := by
              unfold FileLine.read at hline
              split at hline
              · exact blocks_of_readCommon hline
              · cases hline
            exact ⟨List.forall_mem_append.mpr ⟨h.files, List.forall_mem_singleton.mpr hblocks⟩, h.dirs⟩
          · obtain ⟨line, hline, hadd⟩ := exceptBind_eq_ok hadd
            obtain rfl := Except.ok.inj hadd
            refine ⟨h.files, List.forall_mem_append.mpr ⟨h.dirs, List.forall_mem_singleton.mpr ?_⟩⟩
            unfold DirLine.read at hline
            split at hline
            · obtain ⟨common, hcommon, hline⟩ := exceptBind_eq_ok hline
              obtain ⟨entries, hentries, hline⟩ := exceptBind_eq_ok hline
              obtain rfl := Except.ok.inj hline
              refine ⟨blocks_of_readCommon hcommon, fun e he => ?_⟩
              obtain ⟨v, hv, hread⟩ := (mapM_eq_ok hentries).2 e he
              exact writable_of_readEntry (hrest v (by simp [hv])) hread
            · cases hline
          · exact Except.ok.inj hadd ▸ h

/-- A line that is read keeps what is read proper. -/
theorem Input.Proper.step (h : input.Proper letter) {line : List UInt8} (hline : ∀ c ∈ line, letter c)
    (hread : readLine input line = .ok input') : input'.Proper letter := by
  have hspace : ∀ part ∈ Text.fields isSpace line, ∀ c ∈ part, isSpace c = false ∧ letter c := fun part hpart c hc =>
    ⟨mem_fields hpart c hc, hline c (mem_of_mem_fields hpart hc)⟩
  rw [readLine] at hread
  cases hfields : Text.fields isSpace line with
  | nil =>
      rw [hfields] at hread
      exact Except.ok.inj hread ▸ h
  | cons first rest =>
      rw [hfields] at hread hspace
      dsimp only at hread
      split_ifs at hread
      · exact Except.ok.inj hread ▸ h
      · cases rest with
        | nil => cases hread
        | cons number rest =>
            obtain ⟨n, -, hread⟩ := exceptBind_eq_ok hread
            obtain rfl := Except.ok.inj hread
            exact ⟨h.files, h.dirs⟩
      · cases rest with
        | nil => cases hread
        | cons number rest =>
            obtain ⟨n, -, hread⟩ := exceptBind_eq_ok hread
            obtain rfl := Except.ok.inj hread
            exact ⟨h.files, h.dirs⟩
      · obtain ⟨values, hvalues, hadd⟩ := exceptBind_eq_ok hread
        refine h.addLine (fun v hv => ?_) hadd
        obtain ⟨part, hpart, hvalue⟩ := (mapM_eq_ok hvalues).2 v hv
        exact proper_of_value (hspace part hpart) hvalue

theorem proper_of_readInput {lines : List (List UInt8)} (hlines : ∀ line ∈ lines, ∀ c ∈ line, letter c)
    (h : readInput lines = .ok input) : input.Proper letter := by
  have hrun : ∀ {start : Input}, start.Proper letter → lines.foldlM readLine start = .ok input → input.Proper letter := by
    clear h
    induction lines with
    | nil => exact fun hstart hread => Except.ok.inj hread ▸ hstart
    | cons line lines ih =>
        intro start hstart hread
        obtain ⟨hline, hrest⟩ := List.forall_mem_cons.mp hlines
        rw [List.foldlM_cons] at hread
        obtain ⟨next, hnext, hread⟩ := exceptBind_eq_ok hread
        exact ih hrest (hstart.step hline hnext) hread
  exact hrun ⟨by simp, by simp⟩ h

/-- A description that some text is read as can be written, with the letters of the text. -/
theorem writable_of_readInput {lines : List (List UInt8)} (hlines : ∀ line ∈ lines, ∀ c ∈ line, letter c)
    (hread : readInput lines = .ok input) (hdescribes : input.Describes d) :
    Writable d ∧ ∀ dir ∈ d.dirs, ∀ entry ∈ dir.entries, ∀ c ∈ entry.name.bytes, letter c := by
  have hproper := proper_of_readInput hlines hread
  have hfiles : ∀ f ∈ d.files, f.blocks ≠ [] := fun f hf hnil =>
    hproper.files (.of f) (hdescribes.files ▸ List.mem_map_of_mem hf) (congrArg (List.map Int.ofNat) hnil)
  have hdirs := fun dir (hdir : dir ∈ d.dirs) =>
    hproper.dirs (.of dir) (hdescribes.dirs ▸ List.mem_map_of_mem hdir)
  have hentries := fun dir (hdir : dir ∈ d.dirs) entry (hentry : entry ∈ dir.entries) =>
    (hdirs dir hdir).2 _ (List.mem_map_of_mem hentry)
  refine ⟨⟨fun item hitem => ?_, fun dir hdir entry hentry => (hentries dir hdir entry hentry).1⟩,
    fun dir hdir entry hentry => (hentries dir hdir entry hentry).2⟩
  rcases mem_items_cases hitem with ⟨f, hf, rfl⟩ | ⟨dir, hdir, rfl⟩
  · exact hfiles f hf
  · exact fun hnil => (hdirs dir hdir).1 (congrArg (List.map Int.ofNat) hnil)

/-- Descriptions that some text is read as are those that can be written; for texts in ASCII, those with names in
ASCII. -/
theorem readable_iff (d : Description) :
    ((∃ lines input, readInput lines = .ok input ∧ input.Describes d) ↔ Writable d) ∧
      ((∃ lines input, (∀ line ∈ lines, ∀ c ∈ line, c < 128) ∧ readInput lines = .ok input ∧ input.Describes d) ↔
        Writable d ∧ d.Ascii) := by
  refine ⟨⟨?_, fun h => ?_⟩, ⟨?_, ?_⟩⟩
  · rintro ⟨lines, input, hread, hdescribes⟩
    exact (writable_of_readInput (fun _ _ _ _ => trivial) hread hdescribes).1
  · obtain ⟨input, hread, hdescribes⟩ := reads_text h
    exact ⟨d.text, input, hread, hdescribes⟩
  · rintro ⟨lines, input, hlines, hread, hdescribes⟩
    exact writable_of_readInput hlines hread hdescribes
  · rintro ⟨h, hascii⟩
    obtain ⟨input, hread, hdescribes⟩ := reads_text h
    exact ⟨d.text, input, ascii_text hascii, hread, hdescribes⟩

end Read

theorem writable_sampleDescription : Writable sampleDescription where
  blocks := by decide
  entries dir hdir entry hentry := by
    cases List.mem_singleton.mp hdir
    rcases List.mem_cons.mp hentry with rfl | hentry
    · exact ⟨by decide +kernel, by decide, by decide, by decide⟩
    · cases List.mem_singleton.mp hentry
      exact ⟨by decide +kernel, by decide, by decide, by decide⟩

theorem readInput_text_sampleDescription :
    (∃ input, readInput sampleDescription.text = .ok input ∧ ∀ d', input.Describes d' ↔ d' = sampleDescription) ∧
      (sampleDescription.Ascii → ∀ line ∈ sampleDescription.text, ∀ c ∈ line, c < 128) :=
  readInput_text writable_sampleDescription

end Fs5600.GenDisk
