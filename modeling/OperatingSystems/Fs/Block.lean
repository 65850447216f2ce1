import OperatingSystems.Log.Basic

/-!
# Blocks and inode contents

The block layer of `fs.c`: the allocator for raw disk blocks and the functions that read, extend and
discard the content of an inode. Blocks are seen through the buffer cache, as in `bread`.

The disk of one device is kept as its three areas: the free bit map, one bit for each block number;
the on-disk inodes, whose index `i` stands for the inode number `i + 1`; and the blocks. A function
that is given a locked `struct inode` works on the fields that the cache shares with the disk, which
are those of `struct dinode`.
-/

namespace OperatingSystems

open Function

def ndirect : ℕ := 12

abbrev nindirect : ℕ := bSize / 4

def maxFile : ℕ := ndirect + nindirect

abbrev Dev := BitVec 32

def tDev : BitVec 16 := 3

structure Dinode where
  type : BitVec 16
  major : BitVec 16
  minor : BitVec 16
  nlink : BitVec 16
  size : Word
  addrs : Fin (ndirect + 1) → BlockNo
  deriving DecidableEq

/-- What `memset(dip, 0, sizeof(*dip))` leaves. -/
def Dinode.zero : Dinode := ⟨0, 0, 0, 0, 0, fun _ ↦ 0⟩

def Dinode.setAddr (ip : Dinode) (k : Fin (ndirect + 1)) (b : BlockNo) : Dinode :=
  { ip with addrs := update ip.addrs k b }

@[simp] theorem Dinode.setAddr_type (ip : Dinode) (k : Fin (ndirect + 1)) (b : BlockNo) :
    (ip.setAddr k b).type = ip.type := rfl

@[simp] theorem Dinode.setAddr_addrs (ip : Dinode) (k : Fin (ndirect + 1)) (b : BlockNo) :
    (ip.setAddr k b).addrs = update ip.addrs k b := rfl

def Dinode.indirect (ip : Dinode) : BlockNo := ip.addrs (Fin.last ndirect)

/-- The disk of one device, as the buffer cache shows it. -/
structure FsDisk (n : ℕ) where
  bitmap : BlockNo → Bool
  dinode : Fin n → Dinode
  data : Disk

inductive BlockPanic
  /-- `panic("balloc: out of blocks")` -/
  | outOfBlocks
  /-- `panic("freeing free block")` -/
  | freeingFreeBlock
  /-- `panic("bmap: out of range")` -/
  | outOfRange
  /-- `panic("ilock: no type")` -/
  | noType
  /-- `panic("iget: no inodes")` -/
  | noInodes
  deriving DecidableEq, Repr

/-- The parts of the super block that matter here: `sb.size`, and the block behind the free bit map,
where the data area starts. -/
structure Layout where
  size : ℕ
  datastart : ℕ
  /-- `sb.size` is a `uint`. -/
  size_le : size ≤ 2 ^ 32
  /-- There is a boot block. -/
  datastart_pos : 0 < datastart

def Layout.InData (L : Layout) (b : BlockNo) : Prop := L.datastart ≤ b.toNat ∧ b.toNat < L.size

instance (L : Layout) : DecidablePred L.InData := fun _ ↦ inferInstanceAs (Decidable (_ ∧ _))

/-! ## Bytes of a block -/

def Block.byte (b : Block) (x : ℕ) : BitVec 8 := (b.word (x / 4)).extractLsb' (8 * (x % 4)) 8

/-- `memmove(bp->data + o, src, m)`. -/
def Block.store (b : Block) (o m : ℕ) (src : ℕ → BitVec 8) : Block := fun i ↦
  let byte (t : ℕ) : BitVec 8 :=
    let x := 4 * i.val + t
    if o ≤ x ∧ x < o + m then src (x - o) else b.byte x
  byte 3 ++ byte 2 ++ byte 1 ++ byte 0

/-- `memmove(dst, bp->data + o, m)`. -/
def Block.load (b : Block) (o m : ℕ) : List (BitVec 8) := (List.range m).map fun t ↦ b.byte (o + t)

namespace FsDisk

variable {n : ℕ} (L : Layout) (d : FsDisk n)

/-! ## The block allocator -/

def write (b : BlockNo) (c : Block) : FsDisk n := { d with data := update d.data b c }

/-- `iupdate`: store the cached fields of an inode. -/
def iupdate (i : Fin n) (ip : Dinode) : FsDisk n :=
  { d with dinode := update d.dinode i ip }

def mark (b : BlockNo) (v : Bool) : FsDisk n := { d with bitmap := update d.bitmap b v }

section Updates

variable {d} {b : BlockNo} {c : Block} {v : Bool} {i : Fin n} {ip : Dinode}

@[simp] theorem write_bitmap : (d.write b c).bitmap = d.bitmap := rfl

@[simp] theorem write_dinode : (d.write b c).dinode = d.dinode := rfl

@[simp] theorem write_data : (d.write b c).data = update d.data b c := rfl

@[simp] theorem mark_bitmap : (d.mark b v).bitmap = update d.bitmap b v := rfl

@[simp] theorem mark_dinode : (d.mark b v).dinode = d.dinode := rfl

@[simp] theorem mark_data : (d.mark b v).data = d.data := rfl

@[simp] theorem iupdate_bitmap : (d.iupdate i ip).bitmap = d.bitmap := rfl

@[simp] theorem iupdate_dinode : (d.iupdate i ip).dinode = update d.dinode i ip := rfl

@[simp] theorem iupdate_data : (d.iupdate i ip).data = d.data := rfl

end Updates

/-- `balloc`: the first block whose bit is clear, marked and zeroed. -/
def balloc : Except BlockPanic (FsDisk n × BlockNo) :=
  match ((List.range L.size).map (BitVec.ofNat 32)).find? fun b ↦ !d.bitmap b with
  | some b => .ok ((d.mark b true).write b fun _ ↦ 0, b)
  | none => .error .outOfBlocks

def bfree (b : BlockNo) : Except BlockPanic (FsDisk n) :=
  if d.bitmap b = false then .error .freeingFreeBlock else .ok (d.mark b false)

/-! ## Inode content -/

def loadIndirect (ip : Dinode) : Except BlockPanic (FsDisk n × Dinode) :=
  if ip.indirect = 0 then do
    let r ← d.balloc L
    .ok (r.1, ip.setAddr (Fin.last ndirect) r.2)
  else .ok (d, ip)

/-- Entry `j` of the indirect block, allocating it if necessary. -/
def indirectEntry (ip : Dinode) (j : Fin nindirect) :
    Except BlockPanic (FsDisk n × Dinode × BlockNo) :=
  if d.data ip.indirect j = 0 then do
    let r ← d.balloc L
    .ok (r.1.write ip.indirect (update (r.1.data ip.indirect) j r.2), ip, r.2)
  else .ok (d, ip, d.data ip.indirect j)

/-- `bmap`: the disk block address of block `bn` of the inode. -/
def bmap (ip : Dinode) (bn : ℕ) : Except BlockPanic (FsDisk n × Dinode × BlockNo) :=
  if h : bn < ndirect then
    let k : Fin (ndirect + 1) := ⟨bn, Nat.lt_succ_of_lt h⟩
    if ip.addrs k = 0 then do
      let r ← d.balloc L
      .ok (r.1, ip.setAddr k r.2, r.2)
    else .ok (d, ip, ip.addrs k)
  else if h : bn - ndirect < nindirect then do
    let r ← d.loadIndirect L ip
    r.1.indirectEntry L r.2 ⟨bn - ndirect, h⟩
  else .error .outOfRange

/-- The block numbers that `itrunc` frees, in its order. -/
def addresses (ip : Dinode) : List BlockNo :=
  (List.ofFn fun k : Fin ndirect ↦ ip.addrs k.castSucc).filter (· ≠ 0) ++
    if ip.indirect = 0 then [] else
      (List.ofFn fun j : Fin nindirect ↦ d.data ip.indirect j).filter (· ≠ 0) ++ [ip.indirect]

/-- `bfree` of one block after the other. -/
def freeAll : FsDisk n → List BlockNo → Except BlockPanic (FsDisk n)
  | d, [] => .ok d
  | d, b :: bs => do
    let d ← d.bfree b
    freeAll d bs

/-- `itrunc`: discard the content of inode `i`, whose cached fields are `ip`. -/
def itrunc (i : Fin n) (ip : Dinode) : Except BlockPanic (FsDisk n × Dinode) := do
  let d ← freeAll d (d.addresses ip)
  let ip := { ip with addrs := fun _ ↦ 0, size := 0 }
  .ok (d.iupdate i ip, ip)

/-- Bytes that one round of the loops of `readi` and `writei` moves, with `len` bytes to go. -/
def chunk (off len : ℕ) : ℕ := min len (bSize - off % bSize)

/-- The loop of `readi` with `len` bytes to go. Every round moves at least one byte, so `len` rounds
are enough. -/
def readLoop :
    ℕ → FsDisk n → Dinode → ℕ → ℕ → Except BlockPanic (FsDisk n × Dinode × List (BitVec 8))
  | 0, d, ip, _, _ => .ok (d, ip, [])
  | fuel + 1, d, ip, off, len =>
    if len = 0 then .ok (d, ip, []) else do
      let r ← d.bmap L ip (off / bSize)
      let m := chunk off len
      let rest ← readLoop fuel r.1 r.2.1 (off + m) (len - m)
      .ok (rest.1, rest.2.1, (r.1.data r.2.2).load (off % bSize) m ++ rest.2.2)

/-- `readi`: the bytes read, and nothing where it returns -1. The read of a `T_DEV` inode is up to
the device. -/
def readi (ip : Dinode) (off len : Word) :
    Except BlockPanic (FsDisk n × Dinode × Option (List (BitVec 8))) :=
  if ip.type = tDev then .ok (d, ip, none)
  else if ip.size < off ∨ off + len < off then .ok (d, ip, none)
  else do
    let m := if ip.size < off + len then ip.size - off else len
    let r ← readLoop L m.toNat d ip off.toNat m.toNat
    .ok (r.1, r.2.1, some r.2.2)

/-- The loop of `writei` with `len` bytes to go. -/
def writeLoop :
    ℕ → FsDisk n → Dinode → ℕ → ℕ → (ℕ → BitVec 8) → Except BlockPanic (FsDisk n × Dinode)
  | 0, d, ip, _, _, _ => .ok (d, ip)
  | fuel + 1, d, ip, off, len, src =>
    if len = 0 then .ok (d, ip) else do
      let r ← d.bmap L ip (off / bSize)
      let m := chunk off len
      let blk := (r.1.data r.2.2).store (off % bSize) m src
      writeLoop fuel (r.1.write r.2.2 blk) r.2.1 (off + m) (len - m) fun t ↦ src (m + t)

/-- The checks that `writei` makes before it writes to the inode's blocks. -/
def CanWrite (ip : Dinode) (off len : Word) : Prop :=
  ip.type ≠ tDev ∧ ¬(ip.size < off ∨ off + len < off) ∧ (off + len).toNat ≤ maxFile * bSize

instance (ip : Dinode) (off len : Word) : Decidable (CanWrite ip off len) :=
  inferInstanceAs (Decidable (_ ∧ _))

/-- `writei` to inode `i`, whose cached fields are `ip`. Where it returns -1 nothing changes, and
the write to a `T_DEV` inode is up to the device. -/
def writei (i : Fin n) (ip : Dinode) (off len : Word) (src : ℕ → BitVec 8) :
    Except BlockPanic (FsDisk n × Dinode) :=
  if CanWrite ip off len then do
    let r ← writeLoop L len.toNat d ip off.toNat len.toNat src
    if 0 < len ∧ r.2.size < off + len then
      let ip := { r.2 with size := off + len }
      .ok (r.1.iupdate i ip, ip)
    else .ok r
  else .ok (d, ip)

end FsDisk

end OperatingSystems
