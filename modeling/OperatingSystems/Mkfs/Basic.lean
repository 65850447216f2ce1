import OperatingSystems.Fs.Format
import OperatingSystems.Fs.Inode

/-!
# Making a file system

The model of `mkfs.c`, which runs on the build machine and has its own allocators: inodes and blocks
are handed out in order, `freeinode` and `freeblock` being the next ones, and the free bit map is
written last. Nothing is ever freed.

The image is a file of the build machine. It is written in sectors of `BSIZE` bytes: `wsect` extends
it, and `rsect` of a sector behind its end reads nothing, upon which mkfs gives up. The position of
a sector is computed in a `uint`, so sector numbers count modulo `2 ^ 32 / BSIZE`.

A run that fails, in an `assert` or with a non-zero exit status, has no result. The build machine is
a little-endian one, where `xint` and `xshort` do nothing.
-/

namespace OperatingSystems

/-- A file that is given to mkfs. Its name is a C string. -/
structure InputFile where
  name : Bytes
  contents : List (BitVec 8)
  cstr : (0 : UInt8) ∉ name

/-- The name without its leading `_`. -/
def InputFile.target (f : InputFile) : Bytes :=
  if f.name.head? = some 95 then f.name.tail else f.name

def nInodes : ℕ := 200

def nBitmap : ℕ := fssize / (bSize * 8) + 1

def nInodeBlocks : ℕ := nInodes / ipb + 1

def nMeta : ℕ := 2 + logSize + nInodeBlocks + nBitmap

/-- The image, and the allocators of mkfs. -/
structure Mkfs where
  img : ℕ → Block
  len : ℕ
  freeinode : ℕ
  freeblock : ℕ

namespace Mkfs

def sb : Sb where
  size := BitVec.ofNat 32 fssize
  nblocks := BitVec.ofNat 32 (fssize - nMeta)
  ninodes := BitVec.ofNat 32 nInodes
  nlog := BitVec.ofNat 32 logSize
  logstart := 2
  inodestart := BitVec.ofNat 32 (2 + logSize)
  bmapstart := BitVec.ofNat 32 (2 + logSize + nInodeBlocks)

variable (s : Mkfs)

/-! ## Sectors -/

/-- The sector at offset `sec * BSIZE`. -/
def sector (sec : Word) : ℕ := sec.toNat * bSize % 2 ^ 32 / bSize

def wsect (sec : Word) (buf : Block) : Mkfs :=
  { s with
    img := Function.update s.img (sector sec) buf
    len := max s.len (sector sec + 1) }

def rsect (sec : Word) : Option Block :=
  if sector sec < s.len then some (s.img (sector sec)) else none

/-! ## Inodes -/

def winode (inum : ℕ) (ip : Dinode) : Option Mkfs := do
  let buf ← s.rsect (sb.iblock inum)
  some (s.wsect (sb.iblock inum) (buf.putDinode (inum % ipb) ip))

def rinode (inum : ℕ) : Option Dinode := do
  let buf ← s.rsect (sb.iblock inum)
  some (buf.getDinode (inum % ipb))

def ialloc (type : BitVec 16) : Option (Mkfs × ℕ) := do
  let s' ← { s with freeinode := s.freeinode + 1 }.winode s.freeinode
    { Dinode.zero with type := type, nlink := 1, size := 0 }
  some (s', s.freeinode)

/-! ## Contents -/

/-- `freeblock++` -/
def take : Mkfs := { s with freeblock := s.freeblock + 1 }

/-- The block number that `freeblock++` yields. -/
def next : Word := BitVec.ofNat 32 s.freeblock

def takeIndirect (din : Dinode) : Mkfs × Dinode :=
  if din.indirect = 0 then (s.take, din.setAddr (Fin.last ndirect) s.next) else (s, din)

/-- Entry `j` of the indirect block, taken if there is none. -/
def takeEntry (din : Dinode) (j : Fin nindirect) : Option (Mkfs × Dinode × Word) := do
  let indirect ← s.rsect din.indirect
  if indirect j = 0 then
    some (s.take.wsect din.indirect (Function.update indirect j s.next), din, s.next)
  else some (s, din, indirect j)

/-- The block `x` for block `fbn` of the inode, in the loop of `iappend`. -/
def mapBlock (din : Dinode) (fbn : ℕ) : Option (Mkfs × Dinode × Word) :=
  if h : fbn < ndirect then
    let k : Fin (ndirect + 1) := ⟨fbn, Nat.lt_succ_of_lt h⟩
    if din.addrs k = 0 then some (s.take, din.setAddr k s.next, s.next)
    else some (s, din, din.addrs k)
  else if h : fbn - ndirect < nindirect then
    let r := s.takeIndirect din
    r.1.takeEntry r.2 ⟨fbn - ndirect, h⟩
  else none  -- `assert(fbn < MAXFILE)`

/-- The loop of `iappend` with `n` bytes to go. Every round moves at least one, so `n` rounds are
enough. -/
def appendLoop :
    ℕ → Mkfs → Dinode → ℕ → ℕ → (ℕ → BitVec 8) → Option (Mkfs × Dinode)
  | 0, s, din, _, _, _ => some (s, din)
  | fuel + 1, s, din, off, n, p =>
    if n = 0 then some (s, din) else do
      let fbn := off / bSize
      let r ← s.mapBlock din fbn
      let n1 := min n ((fbn + 1) * bSize - off)
      let buf ← r.1.rsect r.2.2
      appendLoop fuel (r.1.wsect r.2.2 (buf.store (off - fbn * bSize) n1 p)) r.2.1 (off + n1)
        (n - n1) fun t ↦ p (n1 + t)

def iappend (inum : ℕ) (xp : List (BitVec 8)) : Option Mkfs := do
  let din ← s.rinode inum
  let off := din.size.toNat
  let r ← appendLoop xp.length s din off xp.length fun t ↦ xp.getD t 0
  r.1.winode inum { r.2 with size := BitVec.ofNat 32 (off + xp.length) }

/-- The loop that copies a file, one `read` of `BSIZE` bytes after the other. -/
def appendFile (inum : ℕ) : ℕ → Mkfs → List (BitVec 8) → Option Mkfs
  | 0, s, _ => some s
  | fuel + 1, s, bytes =>
    if bytes = [] then some s else do
      let s ← s.iappend inum (bytes.take bSize)
      appendFile inum fuel s (bytes.drop bSize)

/-! ## The free bit map -/

/-- `buf[i/8] = buf[i/8] | (0x1 << (i%8))` -/
def setBit (buf : Block) (i : ℕ) : Block :=
  buf.store (i / 8) 1 fun _ ↦ buf.byte (i / 8) ||| 1#8 <<< (i % 8)

def balloc (used : ℕ) : Option Mkfs :=
  if used < bSize * 8 then
    some (s.wsect sb.bmapstart ((List.range used).foldl setBit fun _ ↦ 0))
  else none

/-! ## The main program -/

def rootino : ℕ := 1

/-- The image before the first inode is made: `FSSIZE` sectors of zeroes and the super block. -/
def start : Mkfs :=
  ((List.range fssize).foldl (fun (s : Mkfs) i ↦ s.wsect (BitVec.ofNat 32 i) fun _ ↦ 0)
    (⟨fun _ _ ↦ 0, 0, 1, nMeta⟩ : Mkfs)).wsect 1 (Block.putSb sb)

def addFile (f : InputFile) : Option Mkfs :=
  if slash ∈ f.name then none else do
    let r ← s.ialloc tFile
    let s ← r.1.iappend rootino (dirent r.2 f.target)
    appendFile r.2 f.contents.length s f.contents

def makeRoot : Option Mkfs := do
  let r ← start.ialloc tDir
  if r.2 = rootino then
    let s ← r.1.iappend r.2 (dirent r.2 dot)
    s.iappend r.2 (dirent r.2 dotdot)
  else none

def fixRoot : Option Mkfs := do
  let din ← s.rinode rootino
  let off := din.size.toNat
  s.winode rootino { din with size := BitVec.ofNat 32 ((off / bSize + 1) * bSize) }

def main (files : List InputFile) : Option Mkfs := do
  let s ← makeRoot
  let s ← files.foldlM addFile s
  let s ← s.fixRoot
  s.balloc s.freeblock

end Mkfs

end OperatingSystems
