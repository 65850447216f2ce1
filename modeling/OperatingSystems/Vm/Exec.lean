import OperatingSystems.Fs.Bytes
import OperatingSystems.Vm.Args
import OperatingSystems.Vm.Copyout
import OperatingSystems.Vm.Growproc

/-!
# `exec`

`exec.c` with all its exits: the bytes of the file, the headers in it, the segments that are loaded
page by page, the argument strings on the stack, the inode that is held meanwhile and the
transaction that is open. The file is the array of bytes that `readi` delivers pieces of; no file
means that `namei` found none.

A null entry that is read ends the run, as a panic does; `copyout` is where this can happen.
-/

namespace OperatingSystems

/-! ## ELF files -/

def wordAt (bs : List Byte) (k : ℕ) : Word :=
  bs.getD (k + 3) 0 ++ bs.getD (k + 2) 0 ++ bs.getD (k + 1) 0 ++ bs.getD k 0

def wordBytes (w : Word) : List Byte :=
  [w.extractLsb' 0 8, w.extractLsb' 8 8, w.extractLsb' 16 8, w.extractLsb' 24 8]

structure Elfhdr where
  magic : Word
  entry : Word
  phoff : Word
  phnum : BitVec 16

def Elfhdr.size : ℕ := 52

def Elfhdr.ofBytes (bs : List Byte) : Elfhdr where
  magic := wordAt bs 0
  entry := wordAt bs 24
  phoff := wordAt bs 28
  phnum := bs.getD 45 0 ++ bs.getD 44 0

structure Proghdr where
  type : Word
  off : Word
  vaddr : Word
  filesz : Word
  memsz : Word

def Proghdr.size : ℕ := 32

def Proghdr.ofBytes (bs : List Byte) : Proghdr where
  type := wordAt bs 0
  off := wordAt bs 4
  vaddr := wordAt bs 8
  filesz := wordAt bs 16
  memsz := wordAt bs 20

/-- `"\x7FELF"` in little endian. -/
def elfMagic : Word := 0x464C457F

def elfProgLoad : Word := 1

/-- `size` bytes of the file at `off`, if there are that many. -/
def readStruct (c : List Byte) (off : Word) (size : ℕ) : Option (List Byte) :=
  (FileBytes.readi c off (BitVec.ofNat 32 size)).filter fun bs ↦ bs.length = size

def readElfhdr (c : List Byte) : Option Elfhdr :=
  ((readStruct c 0 Elfhdr.size).map Elfhdr.ofBytes).filter fun elf ↦ elf.magic = elfMagic

def readProghdr (c : List Byte) (off : Word) : Option Proghdr :=
  (readStruct c off Proghdr.size).map Proghdr.ofBytes

namespace Ram

/-! ## Loading segments -/

/-- The loop of `loaduvm`, at the `j`-th page from `addr` on. -/
def loadLoop (pd : PageDir) (addr : Word) (c : List Byte) (offset sz : Word) :
    ℕ → ℕ → Ram → Except VmPanic (Bool × Ram)
  | 0, _, r => .ok (true, r)
  | m + 1, j, r =>
    let page := (addr + BitVec.ofNat 32 (j * pgSize)).toNat / pgSize
    if (pd.table (page / npdEntries)).isNone then .error .addressShouldExist
    else
      let pa := ((pd.pte page).map Pte.pa).getD 0
      let n := min (sz.toNat - j * pgSize) pgSize
      match FileBytes.readi c (offset + BitVec.ofNat 32 (j * pgSize)) (BitVec.ofNat 32 n) with
      | none => .ok (false, r)
      | some bs =>
        let r := r.memmove (p2v pa) 0 bs
        if bs.length ≠ n then .ok (false, r)
        else loadLoop pd addr c offset sz m (j + 1) r

/-- `loaduvm`: load `sz` bytes of the file from `offset` on to user address `addr`; `false` if they
could not be read. -/
def loaduvm (pd : PageDir) (addr : Word) (c : List Byte) (offset sz : Word) (r : Ram) :
    Except VmPanic (Bool × Ram) :=
  if addr.toNat % pgSize ≠ 0 then .error .notAligned
  else loadLoop pd addr c offset sz ((sz.toNat + pgSize - 1) / pgSize) 0 r

variable (img : KernelImage)

/-- The loop of `exec` over the program headers from `off` on; no size means that it failed. -/
def loadSegments (c : List Byte) :
    ℕ → Word → ℕ → PageDir → Ram → Except VmPanic (Option ℕ × PageDir × Ram)
  | 0, _, sz, pd, r => .ok (some sz, pd, r)
  | k + 1, off, sz, pd, r =>
    match readProghdr c off with
    | none => .ok (none, pd, r)
    | some ph =>
      let next := off + BitVec.ofNat 32 Proghdr.size
      if ph.type ≠ elfProgLoad then loadSegments c k next sz pd r
      else if ph.memsz < ph.filesz then .ok (none, pd, r)
      else if ph.vaddr + ph.memsz < ph.vaddr then .ok (none, pd, r)
      else do
        let (size, pd, r) ← r.allocuvm img pd sz (ph.vaddr + ph.memsz).toNat
        if size = 0 then return (none, pd, r)
        else if ph.vaddr.toNat % pgSize ≠ 0 then return (none, pd, r)
        else
          let (loaded, r) ← r.loaduvm pd ph.vaddr c ph.off ph.filesz
          if !loaded then return (none, pd, r) else loadSegments c k next size pd r

end Ram

/-! ## The stack -/

/-- A string in the memory of a process, without its NUL. -/
structure UserString where
  bytes : List Byte
  noNul : (0 : Byte) ∉ bytes
  short : bytes.length < kernBase

def UserString.text (s : UserString) : List Byte := s.bytes ++ [0]

namespace Ram

/-- The loop of `exec` over the arguments, with the pointers to those it has pushed. No result means
that they do not fit. -/
def pushArgs (pd : PageDir) : List UserString → Word → List Word → Ram →
    Except VmPanic (Option (Word × List Word) × Ram)
  | [], sp, ptrs, r => .ok (some (sp, ptrs), r)
  | s :: argv, sp, ptrs, r =>
    if maxArg ≤ ptrs.length then .ok (none, r)
    else do
      let sp := (sp - BitVec.ofNat 32 (s.bytes.length + 1)) &&& ~~~3
      let (copied, r) ← r.copyout pd sp s.text
      if !copied then return (none, r) else pushArgs pd argv sp (ptrs ++ [sp]) r

/-- `ustack`, with the stack pointer below the argument strings. -/
def ustack (sp : Word) (ptrs : List Word) : List Word :=
  [0xffffffff, BitVec.ofNat 32 ptrs.length, sp - BitVec.ofNat 32 ((ptrs.length + 1) * 4)] ++
    ptrs ++ [0]

/-- The arguments on the stack page of a program of size `size`, and `ustack` below them. The result
is the stack pointer. -/
def execArgs (pd : PageDir) (argv : List UserString) (size : ℕ) (r : Ram) :
    Except VmPanic (Option Word × Ram) := do
  match ← r.pushArgs pd argv (BitVec.ofNat 32 size) [] with
  | (none, r) => return (none, r)
  | (some (sp, ptrs), r) =>
    let sp' := sp - BitVec.ofNat 32 ((3 + ptrs.length + 1) * 4)
    let (copied, r) ← r.copyout pd sp' ((ustack sp ptrs).flatMap wordBytes)
    if !copied then return (none, r) else return (some sp', r)

variable (img : KernelImage)

/-- The part of `exec` behind the program headers: two pages at the next page boundary, the first
one inaccessible, and the arguments on the second one. The result is the size and the stack
pointer. -/
def execStack (argv : List UserString) (sz : ℕ) (pd : PageDir) (r : Ram) :
    Except VmPanic (Option (ℕ × Word) × PageDir × Ram) := do
  let (size, pd, r) ← r.allocuvm img pd (pgRoundUp sz) (pgRoundUp sz + 2 * pgSize)
  if size = 0 then return (none, pd, r)
  else
    let pd ← pd.clearpteu ((size - 2 * pgSize) / pgSize)
    let (sp, r) ← r.execArgs pd argv size
    return (sp.map fun sp ↦ (size, sp), pd, r)

end Ram

/-! ## The call -/

/-- What a process has that `exec` changes: its memory, its name, and two registers of its trap
frame. -/
structure ExecProc where
  pgdir : PageDir
  sz : ℕ
  name : List Byte
  eip : Word
  esp : Word

/-- The state that `exec` works on: the memory, the calling process, the inode that the path leads
to, and the system calls in the log. -/
structure ExecState where
  ram : Ram
  proc : ExecProc
  locked : Bool
  ref : ℕ
  outstanding : ℕ

namespace ExecState

variable (s : ExecState)

def beginOp : ExecState := { s with outstanding := s.outstanding + 1 }

def endOp : ExecState := { s with outstanding := s.outstanding - 1 }

/-- `namei` and `ilock` of what it returns. -/
def nameiLock : ExecState := { s with ref := s.ref + 1, locked := true }

def iunlockput : ExecState := { s with ref := s.ref - 1, locked := false }

end ExecState

def lastName (path : List Byte) : List Byte := (path.reverse.takeWhile (· ≠ 47)).reverse

variable (img : KernelImage)

/-- The exit `bad`: what there is by then is given back. -/
def execBad (pgdir : Option PageDir) (ip : Bool) (s : ExecState) :
    Except VmPanic (Word × ExecState) :=
  do
    let r ← match pgdir with
      | none => pure s.ram
      | some pd => s.ram.freevm img.kend pd
    let s := { s with ram := r }
    if ip then return (-1, s.iunlockput.endOp) else return (-1, s)

/-- `exec` of the file `file` with arguments `argv`, called by `path`. -/
def exec (path : List Byte) (file : Option FileData) (argv : List UserString) (s : ExecState) :
    Except VmPanic (Word × ExecState) :=
  match file with
  | none => .ok (-1, s.beginOp.endOp)
  | some c =>
    let s := s.beginOp.nameiLock
    match readElfhdr c.bytes with
    | none => execBad img none true s
    | some elf => do
      match ← s.ram.setupkvm img with
      | (none, r) => execBad img none true { s with ram := r }
      | (some pd, r) =>
        match ← r.loadSegments img c.bytes elf.phnum.toNat elf.phoff 0 pd with
        | (none, pd, r) => execBad img (some pd) true { s with ram := r }
        | (some sz, pd, r) =>
          let s := s.iunlockput.endOp
          match ← r.execStack img argv sz pd with
          | (none, pd, r) => execBad img (some pd) false { s with ram := r }
          | (some (sz, sp), pd, r) =>
            let r ← r.freevm img.kend s.proc.pgdir
            return (0,
              { s with ram := r, proc := ⟨pd, sz, (lastName path).take 15, elf.entry, sp⟩ })

end OperatingSystems
