import OperatingSystems.Lib.Result
import OperatingSystems.Memory.Kalloc

/-!
# Page directories

`vm.c`, as far as it decides which page is where: the entries of a page directory and of its tables,
the pages they are kept in, and the pages that are taken from and given back to the allocator. The
contents of user pages are not represented.

A `PageDir` is flat: for each of the 1024 tables the page that holds it, if there is one, and for
each virtual page the entry. An entry can only exist in a table that does, which the structure
carries as a field. Virtual addresses below are `uint`s as natural numbers, and a virtual page is
its number.
-/

namespace OperatingSystems

open Function

/-- Where the linker put the kernel: its data behind the text at `KERNLINK`, on a page of its own,
and the end of its image. -/
structure KernelImage where
  data : BitVec 32
  kend : BitVec 32
  data_aligned : data.toNat % pgSize = 0
  lt_data : kernBase + 0x100000 < data.toNat
  data_le : data ≤ kend
  kend_lt : kend.toNat < kernBase + physTop

inductive VmPanic
  | remap
  | kfree
  /-- A page that is free is freed again. The kernel does not notice, but its free list is
  broken. -/
  | freeTwice
  | physTop
  /-- `panic("loaduvm: addr must be page aligned")` -/
  | notAligned
  /-- `panic("loaduvm: address should exist")` -/
  | addressShouldExist
  | clearpteu
  | pteShouldExist
  | pageNotPresent
  /-- `panic("init exiting")` -/
  | initExiting
  /-- A page fault in the kernel. -/
  | trap
  /-- The entry that `walkpgdir` did not find is read. -/
  | nullPte
  deriving DecidableEq, Repr

/-! ## The allocator, from above -/

/-- The allocator as its callers see it: the free pages, first one first. A call of `kalloc` may
also fail because another CPU took the pages meanwhile; `deny` says which of the coming calls do. -/
structure Pool where
  free : List (BitVec 32)
  deny : List Bool

namespace Pool

def kalloc (s : Pool) : Option (BitVec 32) × Pool :=
  match s.deny, s.free with
  | true :: deny, _ => (none, { s with deny := deny })
  | deny, [] => (none, { s with deny := deny.tail })
  | deny, p :: free => (some p, { free := free, deny := deny.tail })

def kfree (kend v : BitVec 32) (s : Pool) : Except VmPanic Pool :=
  if IsPage kend v then
    if v ∈ s.free then .error .freeTwice else .ok { s with free := v :: s.free }
  else .error .kfree

end Pool

/-- Kernel address of a physical address, `P2V`. -/
def p2v (a : BitVec 32) : BitVec 32 := a + BitVec.ofNat 32 kernBase

theorem p2v_v2p (v : BitVec 32) : p2v (v2p v) = v := by
  rw [p2v, v2p, BitVec.sub_add_cancel]

/-! ## Entries -/

/-- Permission bits of an entry, `PTE_W` and `PTE_U`. -/
structure Perm where
  w : Bool
  u : Bool
  deriving DecidableEq, Repr

structure Pte where
  pa : BitVec 32
  perm : Perm
  deriving DecidableEq, Repr

@[irreducible] def npdEntries : ℕ := 1024

structure PageDir where
  /-- The page that holds the directory. -/
  page : BitVec 32
  /-- The page that holds the `i`-th table. -/
  table : ℕ → Option (BitVec 32)
  /-- The entry for the `n`-th virtual page. -/
  pte : ℕ → Option Pte
  absent : ∀ n, table (n / npdEntries) = none → pte n = none

namespace PageDir

variable (pd : PageDir)

/-- An empty directory in page `p`. -/
def empty (p : BitVec 32) : PageDir where
  page := p
  table _ := none
  pte _ := none
  absent _ _ := rfl

/-- Install page `t`, cleared, as the `i`-th table. -/
def addTable (i : ℕ) (t : BitVec 32) : PageDir where
  page := pd.page
  table := update pd.table i (some t)
  pte := pd.pte
  absent n h := by
    by_cases hi : n / npdEntries = i
    · rw [hi, update_self] at h
      cases h
    · rw [update_of_ne hi] at h
      exact pd.absent n h

/-- Store into the entry of page `n`, which exists if its table does. -/
def setPte (n : ℕ) (e : Option Pte) : PageDir where
  page := pd.page
  table := pd.table
  pte := if (pd.table (n / npdEntries)).isSome then update pd.pte n e else pd.pte
  absent k h := by
    split
    · next hn =>
      have hk : k ≠ n := by
        rintro rfl
        rw [h] at hn
        cases hn
      rw [update_of_ne hk]
      exact pd.absent k h
    · exact pd.absent k h

/-- `walkpgdir`: whether the entry of page `n` exists, after making its table if that is asked
for. -/
def walkpgdir (n : ℕ) (alloc : Bool) (s : Pool) : Bool × PageDir × Pool :=
  if (pd.table (n / npdEntries)).isSome then (true, pd, s)
  else if !alloc then (false, pd, s)
  else
    match s.kalloc with
    | (none, s) => (false, pd, s)
    | (some t, s) => (true, pd.addTable (n / npdEntries) t, s)

/-- The loop of `mappages` over `k` pages from `n` on. -/
def mapLoop (pd : PageDir) (n : ℕ) (pa : BitVec 32) (perm : Perm) (s : Pool) :
    ℕ → Except VmPanic (Bool × PageDir × Pool)
  | 0 => .ok (true, pd, s)
  | k + 1 =>
    match pd.walkpgdir n true s with
    | (false, pd, s) => .ok (false, pd, s)
    | (true, pd, s) =>
      if (pd.pte n).isSome then .error .remap
      else
        mapLoop (pd.setPte n (some ⟨pa, perm⟩)) (n + 1) (pa + BitVec.ofNat 32 pgSize) perm s k

/-- `mappages`: map `size` bytes from `va` on to physical memory from `pa` on; `false` if a table
could not be allocated. -/
def mappages (va size : ℕ) (pa : BitVec 32) (perm : Perm) (s : Pool) :
    Except VmPanic (Bool × PageDir × Pool) :=
  let last := (va + size - 1) % 2 ^ 32 / pgSize
  pd.mapLoop (va / pgSize) pa perm s (last - va / pgSize + 1)

/-! ## Taking user pages out -/

/-- The loop of `deallocuvm`, at page `n`. Pages whose table is missing are skipped together. -/
def deallocLoop (kend : BitVec 32) (oldsz : ℕ) (pd : PageDir) (n : ℕ) (s : Pool) :
    Except VmPanic (PageDir × Pool) :=
  if n * pgSize < oldsz then
    if (pd.table (n / npdEntries)).isNone then
      deallocLoop kend oldsz pd ((n / npdEntries + 1) * npdEntries) s
    else
      match pd.pte n with
      | none => deallocLoop kend oldsz pd (n + 1) s
      | some e =>
        if e.pa = 0 then .error .kfree
        else do
          let s ← s.kfree kend (p2v e.pa)
          deallocLoop kend oldsz (pd.setPte n none) (n + 1) s
  else .ok (pd, s)
termination_by oldsz - n * pgSize
decreasing_by
  all_goals simp only [pgSize, npdEntries] at *; omega

/-- `deallocuvm`: bring the process size from `oldsz` down to `newsz`. -/
def deallocuvm (kend : BitVec 32) (oldsz newsz : ℕ) (s : Pool) :
    Except VmPanic (ℕ × PageDir × Pool) :=
  if newsz ≥ oldsz then .ok (oldsz, pd, s)
  else do
    let (pd, s) ← deallocLoop kend oldsz pd ((newsz + pgSize - 1) / pgSize) s
    return (newsz, pd, s)

def freeTables (kend : BitVec 32) (pd : PageDir) (s : Pool) : List ℕ → Except VmPanic Pool
  | [] => .ok s
  | i :: is =>
    match pd.table i with
    | none => freeTables kend pd s is
    | some t => do
      let s ← s.kfree kend t
      freeTables kend pd s is

/-- `freevm`: free a directory and all the pages in its user part. -/
def freevm (kend : BitVec 32) (s : Pool) : Except VmPanic Pool := do
  let (_, pd, s) ← pd.deallocuvm kend kernBase 0 s
  let s ← freeTables kend pd s (List.range npdEntries)
  s.kfree kend pd.page

end PageDir

/-! ## The kernel part -/

def extMem : ℕ := 0x100000

def devSpace : ℕ := 0xFE000000

def kernLink : ℕ := kernBase + extMem

structure Kmap where
  virt : ℕ
  physStart : BitVec 32
  physEnd : BitVec 32
  perm : Perm

/-- The kernel's mappings, which are present in every process's page table. -/
def kmap (img : KernelImage) : List Kmap :=
  [ -- I/O space
    ⟨kernBase, 0, BitVec.ofNat 32 extMem, ⟨true, false⟩⟩,
    -- kernel text and read-only data
    ⟨kernLink, v2p (BitVec.ofNat 32 kernLink), v2p img.data, ⟨false, false⟩⟩,
    -- kernel data and memory
    ⟨img.data.toNat, v2p img.data, BitVec.ofNat 32 physTop, ⟨true, false⟩⟩,
    -- more devices
    ⟨devSpace, BitVec.ofNat 32 devSpace, 0, ⟨true, false⟩⟩]

namespace PageDir

variable (img : KernelImage)

/-- The loop of `setupkvm` over the lines of the table. -/
def mapKernel (pd : PageDir) (s : Pool) : List Kmap → Except VmPanic (Bool × PageDir × Pool)
  | [] => .ok (true, pd, s)
  | k :: ks => do
    match ← pd.mappages k.virt (k.physEnd - k.physStart).toNat k.physStart k.perm s with
    | (false, pd, s) => return (false, pd, s)
    | (true, pd, s) => mapKernel pd s ks

/-- `setupkvm`: set up the kernel part of a page table. -/
def setupkvm (s : Pool) : Except VmPanic (Option PageDir × Pool) :=
  match s.kalloc with
  | (none, s) => .ok (none, s)
  | (some p, s) =>
    if kernBase + physTop > devSpace then .error .physTop
    else do
      match ← mapKernel (empty p) s (kmap img) with
      | (true, pd, s) => return (some pd, s)
      | (false, pd, s) =>
        let s ← pd.freevm img.kend s
        return (none, s)

/-! ## The user part -/

/-- `inituvm`: a page for the first process at address 0. -/
def inituvm (pd : PageDir) (s : Pool) : Except VmPanic (Bool × PageDir × Pool) :=
  match s.kalloc with
  | (none, s) => .ok (false, pd, s)
  | (some mem, s) => pd.mappages 0 pgSize (v2p mem) ⟨true, true⟩ s

/-- The loop of `loaduvm` over the pages from `addr` on, at the `j`-th of them; `false` if the file
could not be read. -/
def loadLoop (pd : PageDir) (addr : BitVec 32) (reads : ℕ → Bool) :
    ℕ → ℕ → Except VmPanic Bool
  | 0, _ => .ok true
  | m + 1, j =>
    let n := (addr + BitVec.ofNat 32 (j * pgSize)).toNat / pgSize
    if (pd.table (n / npdEntries)).isNone then .error .addressShouldExist
    else if !reads j then .ok false
    else loadLoop pd addr reads m (j + 1)

/-- `loaduvm`: load a program segment of `sz` bytes into pages that are mapped already; `reads` says
which of the reads from the file deliver all their bytes. -/
def loaduvm (pd : PageDir) (addr sz : BitVec 32) (reads : ℕ → Bool) : Except VmPanic Bool :=
  if addr.toNat % pgSize ≠ 0 then .error .notAligned
  else pd.loadLoop addr reads ((sz.toNat + pgSize - 1) / pgSize) 0

def allocLoop (oldsz newsz : ℕ) (pd : PageDir) (n : ℕ) (s : Pool) :
    Except VmPanic (ℕ × PageDir × Pool) :=
  if n * pgSize < newsz then
    match s.kalloc with
    | (none, s) => do
      let (_, pd, s) ← pd.deallocuvm img.kend newsz oldsz s
      return (0, pd, s)
    | (some mem, s) => do
      match ← pd.mappages (n * pgSize) pgSize (v2p mem) ⟨true, true⟩ s with
      | (false, pd, s) =>
        let (_, pd, s) ← pd.deallocuvm img.kend newsz oldsz s
        let s ← s.kfree img.kend mem
        return (0, pd, s)
      | (true, pd, s) => allocLoop oldsz newsz pd (n + 1) s
  else .ok (newsz, pd, s)
termination_by newsz - n * pgSize
decreasing_by
  simp only [pgSize] at *; omega

/-- `allocuvm`: grow a process from `oldsz` to `newsz`; `0` on error. -/
def allocuvm (pd : PageDir) (oldsz newsz : ℕ) (s : Pool) : Except VmPanic (ℕ × PageDir × Pool) :=
  if newsz ≥ kernBase then .ok (0, pd, s)
  else if newsz < oldsz then .ok (oldsz, pd, s)
  else allocLoop img oldsz newsz pd ((oldsz + pgSize - 1) / pgSize) s

/-- `clearpteu`: make a page inaccessible to the user. -/
def clearpteu (pd : PageDir) (n : ℕ) : Except VmPanic PageDir :=
  if (pd.table (n / npdEntries)).isNone then .error .clearpteu
  else .ok (pd.setPte n ((pd.pte n).map fun e ↦ { e with perm := { e.perm with u := false } }))

/-- The loop of `copyuvm`, at page `n`, into directory `d`. -/
def copyLoop (src : PageDir) (sz : ℕ) (d : PageDir) (n : ℕ) (s : Pool) :
    Except VmPanic (Option PageDir × Pool) :=
  if n * pgSize < sz then
    if (src.table (n / npdEntries)).isNone then .error .pteShouldExist
    else
      match src.pte n with
      | none => .error .pageNotPresent
      | some e =>
        match s.kalloc with
        | (none, s) => do
          let s ← d.freevm img.kend s
          return (none, s)
        | (some mem, s) => do
          match ← d.mappages (n * pgSize) pgSize (v2p mem) e.perm s with
          | (false, d, s) =>
            let s ← s.kfree img.kend mem
            let s ← d.freevm img.kend s
            return (none, s)
          | (true, d, s) => copyLoop src sz d (n + 1) s
  else .ok (some d, s)
termination_by sz - n * pgSize
decreasing_by
  simp only [pgSize] at *; omega

/-- `copyuvm`: a copy of a process's address space for a child. -/
def copyuvm (pd : PageDir) (sz : ℕ) (s : Pool) : Except VmPanic (Option PageDir × Pool) := do
  match ← setupkvm img s with
  | (none, s) => return (none, s)
  | (some d, s) => copyLoop img pd sz d 0 s

end PageDir

end OperatingSystems
