import OperatingSystems.Memory.ShmAlloc
import OperatingSystems.Proc.Basic
import OperatingSystems.Vm.Protect

/-!
# Processes and their pages

The system calls that take pages or give them back, one step each: `fork`, `exec`, `sbrk`, `pipe`,
the closing of a pipe, `exit`, `wait`, and `shm_alloc`. Between two calls a slot of the process
table is unused, or holds a process that runs, or one that has exited and waits to be reaped; what
the scheduler does with it does not matter here.

What `exec` reads from the file, and whether the reads succeed, is an input.
-/

namespace OperatingSystems

/-- What a slot of the process table says about memory. -/
structure VmProc where
  parent : Fin nproc
  zombie : Bool
  kstack : BitVec 32
  pgdir : PageDir
  sz : ℕ

structure PipeBuf where
  page : BitVec 32
  readopen : Bool
  writeopen : Bool

structure Kernel where
  pool : Pool
  proc : Fin nproc → Option VmProc
  pipes : List PipeBuf

/-- A program header, whether it could be read, and which reads of its segment deliver all their
bytes. -/
structure ProgHdr where
  read : Bool
  load : Bool
  vaddr : BitVec 32
  filesz : BitVec 32
  memsz : BitVec 32
  reads : ℕ → Bool

/-- The program that `exec` is given: whether it exists and starts as an ELF file, its headers, and
whether the arguments fit onto the stack. -/
structure ExecFile where
  elf : Bool
  headers : List ProgHdr
  args : Bool

/-! ## System calls -/

namespace Kernel

variable (img : KernelImage) (k : Kernel)

/-- Process `p`, if it can make a system call. -/
def running (p : Fin nproc) : Option VmProc := (k.proc p).filter fun q ↦ !q.zombie

def unused : Option (Fin nproc) := (List.finRange nproc).find? fun i ↦ (k.proc i).isNone

/-- Slot `p` and the allocator after a change. -/
def put (p : Fin nproc) (q : Option VmProc) (s : Pool) : Kernel :=
  { k with pool := s, proc := Function.update k.proc p q }

def fork (p : Fin nproc) (q : VmProc) : Except VmPanic Kernel :=
  match k.unused with
  | none => .ok k
  | some c =>
    match k.pool.kalloc with
    | (none, s) => .ok { k with pool := s }
    | (some kstack, s) => do
      match ← q.pgdir.copyuvm img q.sz s with
      | (none, s) =>
        let s ← s.kfree img.kend kstack
        return { k with pool := s }
      | (some d, s) => return k.put c (some ⟨p, false, kstack, d, q.sz⟩) s

/-- The loop of `exec` over the program headers; no size means that it failed. -/
def loadSegments (sz : ℕ) (pd : PageDir) (s : Pool) :
    List ProgHdr → Except VmPanic (Option ℕ × PageDir × Pool)
  | [] => .ok (some sz, pd, s)
  | ph :: phs =>
    if !ph.read then .ok (none, pd, s)
    else if !ph.load then loadSegments sz pd s phs
    else if ph.memsz < ph.filesz then .ok (none, pd, s)
    else if ph.vaddr + ph.memsz < ph.vaddr then .ok (none, pd, s)
    else do
      let (size, pd, s) ← pd.allocuvm img sz (ph.vaddr + ph.memsz).toNat s
      if size = 0 then return (none, pd, s)
      else if ph.vaddr.toNat % pgSize ≠ 0 then return (none, pd, s)
      else
        let loaded ← pd.loaduvm ph.vaddr ph.filesz ph.reads
        if !loaded then return (none, pd, s) else loadSegments size pd s phs

/-- The part of `exec` behind the program headers: two pages at the next page boundary, the first
one inaccessible and the second one the stack. -/
def execStack (args : Bool) (sz : ℕ) (pd : PageDir) (s : Pool) :
    Except VmPanic (Option ℕ × PageDir × Pool) := do
  let sz := (sz + pgSize - 1) / pgSize * pgSize
  let (size, pd, s) ← pd.allocuvm img sz (sz + 2 * pgSize) s
  if size = 0 then return (none, pd, s)
  else
    let pd ← pd.clearpteu ((size - 2 * pgSize) / pgSize)
    return (if args then some size else none, pd, s)

/-- The address space that `exec` builds for a program, and its size. Where it fails, what it had by
then is given back. -/
def execSpace (file : ExecFile) (s : Pool) : Except VmPanic (Option (ℕ × PageDir) × Pool) := do
  match ← PageDir.setupkvm img s with
  | (none, s) => return (none, s)
  | (some pd, s) =>
    match ← loadSegments img 0 pd s file.headers with
    | (none, pd, s) =>
      let s ← pd.freevm img.kend s
      return (none, s)
    | (some sz, pd, s) =>
      match ← execStack img file.args sz pd s with
      | (none, pd, s) =>
        let s ← pd.freevm img.kend s
        return (none, s)
      | (some sz, pd, s) => return (some (sz, pd), s)

/-- `exec` in the calling process `p`: the new address space takes the place of the old one, which
is freed. -/
def exec (p : Fin nproc) (q : VmProc) (file : ExecFile) : Except VmPanic Kernel :=
  if !file.elf then .ok k
  else do
    match ← execSpace img file k.pool with
    | (none, s) => return { k with pool := s }
    | (some (sz, pd), s) =>
      let s ← q.pgdir.freevm img.kend s
      return k.put p (some { q with pgdir := pd, sz := sz }) s

/-- `growproc`, the work of `sbrk`. A size of 0 is taken for a failure. -/
def growproc (p : Fin nproc) (q : VmProc) (n : BitVec 32) : Except VmPanic Kernel :=
  let newsz := (q.sz + n.toNat) % 2 ^ 32
  if 0 < n.toInt then do
    let (size, pd, s) ← q.pgdir.allocuvm img q.sz newsz k.pool
    if size = 0 then return k.put p (some { q with pgdir := pd }) s
    else return k.put p (some { q with pgdir := pd, sz := size }) s
  else if n.toInt < 0 then do
    let (size, pd, s) ← q.pgdir.deallocuvm img.kend q.sz newsz k.pool
    if size = 0 then return k.put p (some { q with pgdir := pd }) s
    else return k.put p (some { q with pgdir := pd, sz := size }) s
  else .ok k

def pipealloc : Kernel :=
  match k.pool.kalloc with
  | (none, s) => { k with pool := s }
  | (some p, s) => { k with pool := s, pipes := ⟨p, true, true⟩ :: k.pipes }

/-- `pipeclose` of one end of the pipe in page `page`. -/
def closePipe (page : BitVec 32) (writable : Bool) :
    List PipeBuf → Pool → Except VmPanic (List PipeBuf × Pool)
  | [], s => .ok ([], s)
  | b :: bs, s =>
    if b.page = page then
      let b := if writable then { b with writeopen := false } else { b with readopen := false }
      if !b.readopen && !b.writeopen then do
        let s ← s.kfree img.kend b.page
        return (bs, s)
      else .ok (b :: bs, s)
    else do
      let (bs, s) ← closePipe page writable bs s
      return (b :: bs, s)

def pipeclose (page : BitVec 32) (writable : Bool) : Except VmPanic Kernel := do
  let (pipes, s) ← closePipe img page writable k.pipes k.pool
  return { k with pool := s, pipes := pipes }

/-- `exit`: abandoned children pass to `initproc`, and the process stays until it is reaped. -/
def exit (p : Fin nproc) : Kernel :=
  { k with proc := fun i ↦ (k.proc i).map fun q ↦
      { q with
        parent := if q.parent = p then initproc else q.parent
        zombie := if i = p then true else q.zombie } }

/-- The first child of `p` in the table that has exited. -/
def exited (p : Fin nproc) : Option (Fin nproc) :=
  (List.finRange nproc).find? fun i ↦
    match k.proc i with
    | none => false
    | some q => decide (q.parent = p) && q.zombie

/-- `wait`, when it finds a child to reap. -/
def wait (p : Fin nproc) : Except VmPanic Kernel :=
  match k.exited p with
  | none => .ok k
  | some c =>
    match k.proc c with
    | none => .ok k
    | some q => do
      let s ← k.pool.kfree img.kend q.kstack
      let s ← q.pgdir.freevm img.kend s
      return k.put c none s

end Kernel

/-- A directory after the bytes from `lo` up to `hi` were cleared: an entry in this range, be it of
the directory or of a table, is not present any more. -/
def PageDir.clearRange (lo hi : ℕ) (pd : PageDir) : PageDir where
  page := pd.page
  table i := (pd.table i).filter fun _ ↦
    !(decide (lo ≤ pd.page.toNat + 4 * i) && decide (pd.page.toNat + 4 * i < hi))
  pte n :=
    match (pd.table (n / npdEntries)).filter fun _ ↦
      !(decide (lo ≤ pd.page.toNat + 4 * (n / npdEntries)) &&
        decide (pd.page.toNat + 4 * (n / npdEntries) < hi)) with
    | none => none
    | some t =>
      if lo ≤ t.toNat + 4 * (n % npdEntries) ∧ t.toNat + 4 * (n % npdEntries) < hi then none
      else pd.pte n
  absent n h := by rw [h]

namespace Kernel

variable (k : Kernel)

/-- `sys_shm_alloc`, given what `argint` delivered; no result means that a store of the clear
trapped. The clear takes effect on whatever page tables lie in its way. The links of other free
pages in its way are not represented here. -/
def sysShmAlloc (arg : Option (BitVec 32)) : Option (Kernel × BitVec 32) :=
  match arg with
  | none => some (k, -1)
  | some size =>
    if size.toInt ≤ 0 then some (k, -1)
    else
      match k.pool.kalloc with
      | (none, s) => some ({ k with pool := s }, -1)
      | (some addr, s) =>
        if addr.toNat + size.toNat ≤ kernBase + physTop then
          some ({ k with
            pool := s
            proc := fun i ↦ (k.proc i).map fun q ↦
              { q with pgdir := q.pgdir.clearRange addr.toNat (addr.toNat + size.toNat) } }, addr)
        else none

end Kernel

/-! ## The machine -/

inductive VmCall
  | fork
  | exec (file : ExecFile)
  | sbrk (n : BitVec 32)
  | pipe
  | pipeclose (page : BitVec 32) (writable : Bool)
  | exit
  | wait
  | shmAlloc (arg : Option (BitVec 32))

/-- A system call by process `p`, and which calls of `kalloc` fail on the way. -/
structure KernelAct where
  p : Fin nproc
  call : VmCall
  deny : List Bool

namespace Kernel

variable (img : KernelImage)

def call (k : Kernel) (p : Fin nproc) (q : VmProc) : VmCall → Except VmPanic Kernel
  | .fork => k.fork img p q
  | .exec file => k.exec img p q file
  | .sbrk n => k.growproc img p q n
  | .pipe => .ok k.pipealloc
  | .pipeclose page writable => k.pipeclose img page writable
  | .exit => if p = initproc then .error .initExiting else .ok (k.exit p)
  | .wait => k.wait img p
  | .shmAlloc arg =>
    match k.sysShmAlloc arg with
    | none => .error .trap
    | some (k, _) => .ok k

def step (k : Kernel) (a : KernelAct) : Option Kernel :=
  match k.running a.p with
  | none => none
  | some q =>
    (call img { k with pool := { k.pool with deny := a.deny } } a.p q a.call).toOption

/-- `userinit`: the first process, with one page of memory. -/
def userinit (s : Pool) : Except VmPanic (Option Kernel) :=
  match s.kalloc with
  | (none, _) => .ok none
  | (some kstack, s) => do
    match ← PageDir.setupkvm img s with
    | (none, _) => return none
    | (some pd, s) =>
      match ← pd.inituvm s with
      | (false, _, _) => return none
      | (true, pd, s) =>
        return some
          { pool := s
            proc := Function.update (fun _ ↦ none) initproc
              (some ⟨initproc, false, kstack, pd, pgSize⟩)
            pipes := [] }

end Kernel

/-- The kernel from `userinit` on, with any pages that `freerange` may have put on the free list. -/
def kernel (img : KernelImage) : Machine Kernel KernelAct where
  init k := ∃ s : Pool, s.free.Nodup ∧ (∀ p ∈ s.free, IsPage img.kend p) ∧
    Kernel.userinit img s = .ok (some k)
  step := Kernel.step img

end OperatingSystems
