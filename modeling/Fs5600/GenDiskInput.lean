import Fs5600.Base.Text
import Fs5600.GenDisk

/-! `gen-disk.py`: how the lines of its input are read. The text is in ASCII and has no NUL. -/

namespace Fs5600.GenDisk

open Text

inductive Failure
  | value
  | index
  | key
  | type
  | attribute
  deriving DecidableEq

/-- White space, where `split()` splits -/
def isSpace (c : UInt8) : Bool := decide (9 ≤ c ∧ c ≤ 13 ∨ 28 ≤ c ∧ c ≤ 32)

def hash : UInt8 := 35

def dollar : UInt8 := 36

def dash : UInt8 := 45

def comma : UInt8 := 44

/-- A numeral with a sign. -/
def signed (readNat : List UInt8 → Option Nat) (text : List UInt8) : Option Int :=
  if text.head? = some dash then (readNat text.tail).map fun n => -Int.ofNat n
  else if text.head? = some 43 then (readNat text.tail).map Int.ofNat
  else (readNat text).map Int.ofNat

/-- `int(text)`. The bound on the number of digits that newer versions of Python set (4300, if it is not changed) is left
out. -/
def readInt (text : List UInt8) : Except Failure Int := (signed (readNat 10) text).elim (.error .value) .ok

/-- The base that stands after a zero: `x`, `o` or `b`. -/
def prefixBase (text : List UInt8) : Option Nat :=
  if text.head? = some 120 ∨ text.head? = some 88 then some 16
  else if text.head? = some 111 ∨ text.head? = some 79 then some 8
  else if text.head? = some 98 ∨ text.head? = some 66 then some 2
  else none

/-- A numeral that says its base. Without one a zero in front is allowed only to zero, and behind one an underscore. -/
def readPrefixed (text : List UInt8) : Option Nat :=
  if text.head? = some 48 then
    match prefixBase text.tail with
    | some base => readNat base (if text.tail.tail.head? = some underscore then text.tail.tail.tail else text.tail.tail)
    | none => (readNat 10 text).filter (· = 0)
  else readNat 10 text

/-- `int(text, 0)`, which has the same bound for decimal digits, left out here as well. -/
def readInt0 (text : List UInt8) : Except Failure Int := (signed readPrefixed text).elim (.error .value) .ok

/-- A field of a line, after the symbols are replaced. -/
inductive Value
  | text (s : List UInt8)
  | int (n : Int)

def Value.toInt : Value → Except Failure Int
  | .text s => readInt s
  | .int n => .ok n

/-- `list(map(int, value.split(',')))` -/
def Value.toInts : Value → Except Failure (List Int)
  | .text s => (s.splitOn comma).mapM readInt
  | .int _ => .error .attribute

/-- `class file`, as it is read. -/
structure FileLine where
  inum : Int
  uid : Value
  gid : Value
  mode : Value
  ctime : Value
  mtime : Value
  size : Int
  blocks : List Int

/-- `class dir`, as it is read. The entries are those of the list: valid, name and number. -/
structure DirLine extends FileLine where
  entries : List (Bool × List UInt8 × Int)

/-- What the constructors of both classes do with the first nine fields. -/
def readCommon (inum uid gid mode ctime mtime size blocks : Value) : Except Failure FileLine := do
  let inum ← inum.toInt
  let size ← size.toInt
  let blocks ← blocks.toInts
  .ok ⟨inum, uid, gid, mode, ctime, mtime, size, blocks⟩

def FileLine.read : List Value → Except Failure FileLine
  | [inum, _, uid, gid, mode, ctime, mtime, size, blocks] => readCommon inum uid gid mode ctime mtime size blocks
  | _ => .error .value

/-- An entry of a directory. -/
def readEntry : Value → Except Failure (Bool × List UInt8 × Int)
  | .int _ => .error .type
  | .text s =>
      if s.head? = some dash then .ok (false, s.tail, 0)
      else
        match s.splitOn comma with
        | [name, inum] => do
            let inum ← readInt inum
            .ok (true, name, inum)
        | _ => .error .value

def DirLine.read : List Value → Except Failure DirLine
  | inum :: _ :: uid :: gid :: mode :: ctime :: mtime :: size :: blocks :: rest => do
      let line ← readCommon inum uid gid mode ctime mtime size blocks
      let entries ← rest.mapM readEntry
      .ok ⟨line, entries⟩
  | _ => .error .value

structure Input where
  syms : List UInt8 → Option Int
  files : List FileLine
  dirs : List DirLine
  nblocks : Int

/-- `if fields[i][0] == '$': fields[i] = syms[fields[i]]` -/
def Input.value (input : Input) (field : List UInt8) : Except Failure Value :=
  if field.head? = some dollar then (input.syms field).elim (.error .key) fun n => .ok (.int n)
  else .ok (.text field)

def sizeWord : List UInt8 := [115, 105, 122, 101]

def fileWord : List UInt8 := [102, 105, 108, 101]

def dirWord : List UInt8 := [100, 105, 114]

/-- A line that is neither a comment, a symbol nor the size, with its symbols replaced. -/
def Input.addLine (input : Input) : List Value → Except Failure Input
  | .text word :: rest =>
      if word = fileWord then do
        let line ← FileLine.read rest
        .ok { input with files := input.files ++ [line] }
      else if word = dirWord then do
        let line ← DirLine.read rest
        .ok { input with dirs := input.dirs ++ [line] }
      else .ok input
  | _ => .ok input

/-- One turn of `for line in open(sys.argv[1],'r')`. A line comes without its end. -/
def readLine (input : Input) (line : List UInt8) : Except Failure Input :=
  match fields isSpace line with
  | [] => .ok input
  | first :: rest =>
      if line.head? = some hash then .ok input
      else if line.head? = some dollar then
        match rest with
        | [] => .error .index
        | number :: _ => do
            let n ← readInt0 number
            .ok { input with syms := Function.update input.syms first (some n) }
      else if first = sizeWord then
        match rest with
        | [] => .error .index
        | number :: _ => do
            let n ← readInt number
            .ok { input with nblocks := n }
      else do
        let values ← (first :: rest).mapM input.value
        input.addLine values

/-- The whole loop. -/
def readInput (lines : List (List UInt8)) : Except Failure Input := lines.foldlM readLine ⟨fun _ => none, [], [], 0⟩

/-! ### From lines to a description -/

/-- The lines that can be written: all of their values are numbers. -/
def FileLine.of (f : File) : FileLine where
  inum := f.inum
  uid := .int f.uid
  gid := .int f.gid
  mode := .int f.mode
  ctime := .int f.ctime
  mtime := .int f.mtime
  size := f.size
  blocks := f.blocks.map Int.ofNat

def DirLine.of (d : Dir) : DirLine where
  toFileLine := .of d.toFile
  entries := d.entries.map fun entry => (entry.valid, entry.name.bytes, entry.num)

structure Input.Describes (input : Input) (d : Description) : Prop where
  nblocks : input.nblocks = d.nblocks
  files : input.files = d.files.map FileLine.of
  dirs : input.dirs = d.dirs.map DirLine.of

end Fs5600.GenDisk
