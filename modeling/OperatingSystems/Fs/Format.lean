import OperatingSystems.Fs.Contents
import OperatingSystems.Fs.Path

/-!
# The on-disk format

The structures that `fs.h` lays out on the disk, and how the kernel finds them: the super block in
block 1, which says where the inode blocks and the free bit map start, `IPB` inodes to a block, and
one bit of the map for each block. `FsDisk.ofImage` is what the inode layer sees of a disk.

A block is an array of words here, as the machine lays it out: the low half of a word comes first.
-/

namespace OperatingSystems

structure Sb where
  size : Word
  nblocks : Word
  ninodes : Word
  nlog : Word
  logstart : Word
  inodestart : Word
  bmapstart : Word
  deriving DecidableEq

def ipb : ℕ := 8

def bpb : ℕ := bSize * 8

def dinodeWords : ℕ := bSize / 4 / ipb

/-- `IBLOCK`: the block containing inode `inum`. -/
def Sb.iblock (sb : Sb) (inum : ℕ) : BlockNo := BitVec.ofNat 32 (inum / ipb) + sb.inodestart

/-- `BBLOCK`: the block of the free map containing the bit for block `b`. -/
def Sb.bblock (sb : Sb) (b : BlockNo) : BlockNo := BitVec.ofNat 32 (b.toNat / bpb) + sb.bmapstart

namespace Block

/-- `struct superblock` at the start of a block. -/
def getSb (b : Block) : Sb :=
  ⟨b.word 0, b.word 1, b.word 2, b.word 3, b.word 4, b.word 5, b.word 6⟩

def getDinode (b : Block) (k : ℕ) : Dinode where
  type := (b.word (dinodeWords * k)).extractLsb' 0 16
  major := (b.word (dinodeWords * k)).extractLsb' 16 16
  minor := (b.word (dinodeWords * k + 1)).extractLsb' 0 16
  nlink := (b.word (dinodeWords * k + 1)).extractLsb' 16 16
  size := b.word (dinodeWords * k + 2)
  addrs := fun j ↦ b.word (dinodeWords * k + 3 + j)

/-- Bit `x` of a block: `data[x/8] & (1 << (x%8))`. -/
def bit (b : Block) (x : ℕ) : Bool := (b.byte (x / 8)).getLsbD (x % 8)

end Block

def Dinode.word (ip : Dinode) (w : ℕ) : Word :=
  if w = 0 then ip.major ++ ip.type
  else if w = 1 then ip.nlink ++ ip.minor
  else if w = 2 then ip.size
  else if h : w - 3 < ndirect + 1 then ip.addrs ⟨w - 3, h⟩ else 0

namespace Block

/-- A block with `ip` stored as its inode number `k`. -/
def putDinode (b : Block) (k : ℕ) (ip : Dinode) : Block := fun w ↦
  if w.val / dinodeWords = k then ip.word (w.val % dinodeWords) else b w

/-- A block of zeroes with `sb` at its start. -/
def putSb (sb : Sb) : Block := fun w ↦
  ([sb.size, sb.nblocks, sb.ninodes, sb.nlog, sb.logstart, sb.inodestart, sb.bmapstart]).getD w 0

@[simp] theorem getSb_putSb (sb : Sb) : (putSb sb).getSb = sb := rfl

/-! ## Reading back an inode -/

theorem word_of_lt (b : Block) {w : ℕ} (h : w < bSize / 4) : b.word w = b ⟨w, h⟩ := dif_pos h

variable {k' : ℕ}

theorem word_putDinode (b : Block) {k t : ℕ} (ip : Dinode) (ht : t < dinodeWords) (hk' : k' < ipb) :
    (b.putDinode k ip).word (dinodeWords * k' + t) =
      if k' = k then ip.word t else b.word (dinodeWords * k' + t) := by
  have hlt : dinodeWords * k' + t < bSize / 4 := by
    simp only [dinodeWords, bSize, ipb] at *
    omega
  have hdiv : (dinodeWords * k' + t) / dinodeWords = k' := by
    simp only [dinodeWords, bSize, ipb] at *
    omega
  have hmod : (dinodeWords * k' + t) % dinodeWords = t := by
    simp only [dinodeWords, bSize, ipb] at *
    omega
  rw [word_of_lt _ hlt, word_of_lt _ hlt, putDinode, hdiv, hmod]

theorem extractLsb'_append_low (x y : BitVec 16) : (x ++ y).extractLsb' 0 16 = y := by
  apply BitVec.eq_of_getLsbD_eq
  intro k hk
  simp only [BitVec.getLsbD_extractLsb', BitVec.getLsbD_append, hk, decide_true, Bool.true_and,
    Nat.zero_add, if_true]

theorem extractLsb'_append_high (x y : BitVec 16) : (x ++ y).extractLsb' 16 16 = x := by
  apply BitVec.eq_of_getLsbD_eq
  intro k hk
  have hge : ¬16 + k < 16 := by omega
  simp only [BitVec.getLsbD_extractLsb', BitVec.getLsbD_append, hk, decide_true, Bool.true_and,
    hge, if_false, Nat.add_sub_cancel_left]

/-- **Inodes of a block.** An inode that was stored is read back, and the others are as they
were. -/
theorem getDinode_putDinode (b : Block) (k : ℕ) (ip : Dinode) (hk' : k' < ipb) :
    (b.putDinode k ip).getDinode k' = if k' = k then ip else b.getDinode k' := by
  have hword : ∀ {t}, t < dinodeWords → (b.putDinode k ip).word (dinodeWords * k' + t) =
      if k' = k then ip.word t else b.word (dinodeWords * k' + t) :=
    fun ht ↦ word_putDinode b ip ht hk'
  have h₀ := hword (t := 0) (by decide)
  have haddrs : ∀ j : Fin (ndirect + 1), (b.putDinode k ip).word (dinodeWords * k' + 3 + j) =
      if k' = k then ip.addrs j else b.word (dinodeWords * k' + 3 + j) := by
    intro j
    have hj := j.isLt
    have ht : 3 + j.val < dinodeWords := by
      simp only [ndirect, dinodeWords, bSize, ipb] at *
      omega
    have h₁ : ¬3 + j.val = 0 := by omega
    have h₂ : ¬3 + j.val = 1 := by omega
    have h₃ : ¬3 + j.val = 2 := by omega
    have hsub : 3 + j.val - 3 = j.val := by omega
    have hlt : 3 + j.val - 3 < ndirect + 1 := by omega
    rw [Nat.add_assoc, hword ht, Dinode.word, if_neg h₁, if_neg h₂, if_neg h₃,
      dif_pos hlt]
    exact congrArg (fun m ↦ if k' = k then ip.addrs m else b.word _) (Fin.ext hsub)
  rw [Nat.add_zero] at h₀
  rw [getDinode, h₀, hword (by decide), hword (by decide), funext haddrs]
  by_cases hkk : k' = k
  · simp only [if_pos hkk, Dinode.word, extractLsb'_append_low, extractLsb'_append_high, if_true,
      one_ne_zero, if_false, OfNat.ofNat_ne_zero, OfNat.ofNat_ne_one]
  · simp only [if_neg hkk, getDinode]

end Block

/-! ## Directory entries -/

def tDir : BitVec 16 := 1

def tFile : BitVec 16 := 2

def direntSize : ℕ := 2 + dirsiz

/-- A `struct dirent`: the name is cut to `DIRSIZ` bytes, or padded with zeroes. -/
def dirent (inum : ℕ) (name : Bytes) : List (BitVec 8) :=
  BitVec.ofNat 8 inum :: BitVec.ofNat 8 (inum / 256) ::
    (List.range dirsiz).map fun t ↦ (name.getD t 0).toBitVec

theorem length_dirent (inum : ℕ) (name : Bytes) : (dirent inum name).length = direntSize := by
  rw [dirent, List.length_cons, List.length_cons, List.length_map, List.length_range]
  rfl

/-! ## The disk as the inode layer sees it -/

/-- The layout that a super block describes: the data blocks follow the free bit map. -/
def Sb.layout (sb : Sb) : Layout where
  size := sb.size.toNat
  datastart := sb.bmapstart.toNat + sb.size.toNat / bpb + 1
  size_le := sb.size.isLt.le
  datastart_pos := Nat.succ_pos _

namespace FsDisk

variable {n : ℕ}

/-- The first `n` inodes, the free bit map and the blocks of a disk whose super block is `sb`. -/
def ofImage (sb : Sb) (img : Disk) : FsDisk n where
  bitmap b := (img (sb.bblock b)).bit (b.toNat % bpb)
  dinode i := (img (sb.iblock (i + 1))).getDinode ((i + 1) % ipb)
  data := img

variable {L : Layout} {d d' : FsDisk n}

theorem stored_congr (h : d.Owned L) (hd : d'.dinode = d.dinode)
    (hdata : ∀ b, L.InData b → d'.data b = d.data b) : d'.stored = d.stored := by
  funext x
  rw [stored, stored, hd]
  rcases x with ⟨i, q⟩
  cases q with
  | direct k => rfl
  | indirect j =>
    dsimp only [Dinode.pointer]
    split
    · rfl
    · next hne =>
      obtain ⟨htype, hind⟩ := not_or.mp hne
      have hlast : d.stored (i, .last) = (d.dinode i).indirect := (indirect_eq_stored htype).symm
      have hin := (h.owns.used_of (i, .last) (hlast ▸ hind)).1
      rw [hdata _ (hlast ▸ hin)]

theorem byteAt_congr (h : d.Owned L) (hd : d'.dinode = d.dinode)
    (hdata : ∀ b, L.InData b → d'.data b = d.data b) {i : Fin n} {x : ℕ}
    (hx : d.blockAt i (x / bSize) ≠ 0) : d'.byteAt i x = d.byteAt i x := by
  have hat : d'.blockAt i (x / bSize) = d.blockAt i (x / bSize) := by
    rw [blockAt, blockAt, stored_congr h hd hdata]
  obtain ⟨q, _, hne, hq⟩ := exists_of_blockAt_ne_zero hx
  rw [byteAt, byteAt, hat, hdata]
  rw [hq]
  exact (h.owns.used_of (i, q) hne).1

end FsDisk

end OperatingSystems
