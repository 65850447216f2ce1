import OperatingSystems.Mkfs.Files

/-!
# The image that mkfs leaves

The kernel finds everything on the image through the super block: `kernelDisk` is the disk as its
inode layer sees it. It is the disk of the volume that mkfs has made, with the blocks below
`freeblock` marked in the free bit map.

`Consistent` is what a file system checker would ask for. The image is consistent unless mkfs was
given more files than there are inodes, which it does not notice, or a number of files for which the
entries of the root directory fill whole blocks: rounding up the size of the directory then adds a
block that it does not have.
-/

namespace OperatingSystems

namespace Mkfs

variable {s s₁ : Mkfs} {files : List InputFile} {b : BlockNo} {i : Ino}

/-! ## The free bit map -/

theorem bit_setBit (buf : Block) {i x : ℕ} (hx : x < bSize * 8) :
    (setBit buf i).bit x = (decide (x = i) || buf.bit x) := by
  have hbyte : x / 8 < bSize := Nat.div_lt_of_lt_mul (Nat.mul_comm 8 bSize ▸ hx)
  rw [Block.bit, setBit, Block.byte_store _ _ _ _ hbyte, Block.bit]
  by_cases hdiv : x / 8 = i / 8
  · have hin : i / 8 ≤ x / 8 ∧ x / 8 < i / 8 + 1 := by omega
    have hlt : x % 8 < 8 := Nat.mod_lt _ (by decide)
    rw [if_pos hin, hdiv, BitVec.getLsbD_or, BitVec.getLsbD_shiftLeft, BitVec.getLsbD_one,
      Bool.or_comm]
    congr 1
    by_cases hxi : x = i
    · subst hxi
      simp [hlt]
    · have hmod : x % 8 ≠ i % 8 := by omega
      by_cases hle : x % 8 < i % 8
      · simp [hxi, hle]
      · have hsub : ¬x % 8 - i % 8 = 0 := by omega
        simp [hxi, hsub]
  · have hout : ¬(i / 8 ≤ x / 8 ∧ x / 8 < i / 8 + 1) := by omega
    have hxi : x ≠ i := fun h ↦ hdiv (congrArg (· / 8) h)
    rw [if_neg hout, decide_eq_false hxi, Bool.false_or]

theorem bit_setBits {x : ℕ} (hx : x < bSize * 8) (used : ℕ) :
    ((List.range used).foldl setBit fun _ ↦ 0).bit x = decide (x < used) := by
  induction used with
  | zero =>
    have hbyte : Block.byte (fun _ ↦ 0) (x / 8) = 0 := by
      rw [Block.byte, Block.word]
      split
      · exact BitVec.extractLsb'_zero
      · exact BitVec.extractLsb'_zero
    rw [List.range_zero, List.foldl_nil, Block.bit, hbyte, decide_eq_false (Nat.not_lt_zero x)]
    exact BitVec.getLsbD_zero
  | succ used ih =>
    rw [List.range_succ, List.foldl_append, List.foldl_cons, List.foldl_nil, bit_setBit _ hx, ih,
      ← Bool.decide_or]
    exact decide_eq_decide.2 (by omega)

/-! ## The kernel's view -/

def kernelDisk (s : Mkfs) : FsDisk nInodes :=
  FsDisk.ofImage (s.img 1).getSb fun b ↦ s.img b.toNat

theorem kernelDisk_dinode (h : Wf s) : s.kernelDisk.dinode = s.disk.dinode := by
  funext i
  have hsec : sector (sb.iblock (i + 1)) = (sb.iblock (i + 1)).toNat :=
    (sector_iblock i).trans (toNat_iblock i).symm
  rw [kernelDisk, h.super, Block.getSb_putSb]
  dsimp only [FsDisk.ofImage, disk]
  rw [hsec]

theorem kernelDisk_data (hb : sb.layout.InData b) : s.kernelDisk.data b = s.disk.data b :=
  (if_pos (inData_iff.1 hb)).symm

theorem Finished.kernelDisk_bitmap (h : Finished files s₁ s) (hb : b.toNat < bpb) :
    s.kernelDisk.bitmap b = decide (b.toNat < s.freeblock) := by
  have hblock : (sb.bblock b).toNat = nMeta - 1 := by
    have hdiv : b.toNat / bpb = 0 := Nat.div_eq_of_lt hb
    rw [Sb.bblock, hdiv]
    decide
  rw [kernelDisk, h.wf.super, Block.getSb_putSb]
  dsimp only [FsDisk.ofImage]
  rw [hblock, h.bitmap, Nat.mod_eq_of_lt hb]
  exact bit_setBits hb _

namespace Finished

theorem stored_disk (h : Finished files s₁ s) : s.disk.stored = s₁.disk.stored := by
  have hself : s₁.disk.iupdate root (s₁.disk.dinode root) = s₁.disk := FsDisk.iupdate_self
  rw [h.disk, ← congrArg FsDisk.stored hself]
  exact FsDisk.stored_iupdate_congr rfl rfl

theorem owned (h : Finished files s₁ s) : s.disk.Owned sb.layout :=
  h.holds.owned.congr h.stored_disk (by rw [h.disk, FsDisk.iupdate_bitmap])

theorem stored_kernelDisk (h : Finished files s₁ s) :
    s.kernelDisk.stored = s₁.disk.stored :=
  (FsDisk.stored_congr h.owned (kernelDisk_dinode h.wf) fun _ hb ↦ kernelDisk_data hb).trans
    h.stored_disk

theorem size_root (h : Finished files s₁ s) : (s.kernelDisk.dinode root).size.toNat =
    (direntSize * (files.length + 2) / bSize + 1) * bSize := by
  have hfits := (h.holds.holding root _ (vol_root files)).fits
  rw [length_rootEntry] at hfits
  rw [kernelDisk_dinode h.wf, h.disk, FsDisk.iupdate_dinode, Function.update_self]
  refine (BitVec.toNat_ofNat ..).trans (Nat.mod_eq_of_lt ?_)
  simp only [maxFile, ndirect, nindirect, bSize] at hfits ⊢
  omega

theorem dinode_of_ne (h : Finished files s₁ s) (hi : i ≠ root) :
    s.kernelDisk.dinode i = s₁.disk.dinode i := by
  rw [kernelDisk_dinode h.wf, h.disk, FsDisk.iupdate_dinode, Function.update_of_ne hi]

end Finished

/-! ## Consistency -/

/-- A place that holds the number of a block below the size of the inode, or that of an indirect
block. -/
def InUse {n : ℕ} (d : FsDisk n) (x : Fin n × Pointer) : Prop :=
  (∃ bn, bn * bSize < (d.dinode x.1).size.toNat ∧ Pointer.ofBlock bn = some x.2) ∨
    x.2 = .last ∧ d.stored x ≠ 0

structure Consistent (s : Mkfs) : Prop where
  mapped : ∀ i, s.kernelDisk.Dense i
  distinct : ∀ x y, InUse s.kernelDisk x → InUse s.kernelDisk y →
    s.kernelDisk.stored x = s.kernelDisk.stored y → x = y
  inData : ∀ x, InUse s.kernelDisk x →
    nMeta ≤ (s.kernelDisk.stored x).toNat ∧ (s.kernelDisk.stored x).toNat < fssize
  marked : ∀ b : BlockNo, b.toNat < nBitmap * bpb → (s.kernelDisk.bitmap b = true ↔
    b.toNat < nMeta ∨ ∃ x, InUse s.kernelDisk x ∧ s.kernelDisk.stored x = b)
  inodes : ∀ inum, rootino ≤ inum → inum < s.freeinode → inum < sb.ninodes.toNat

variable {x : Ino × Pointer}

theorem Finished.lt_size_iff (h : Finished files s₁ s)
    (hpart : direntSize * (files.length + 2) % bSize ≠ 0) {e : Content} (hi : vol files i = some e)
    (bn : ℕ) : bn * bSize < (s.kernelDisk.dinode i).size.toNat ↔ bn * bSize < e.bytes.length := by
  by_cases hroot : i = root
  · rw [hroot, vol_root] at hi
    obtain rfl := Option.some.inj hi
    rw [hroot, h.size_root, length_rootEntry]
    simp only [bSize] at hpart ⊢
    omega
  · rw [h.dinode_of_ne hroot, (h.holds.holding i e hi).size]

theorem Finished.inUse_iff (h : Finished files s₁ s)
    (hpart : direntSize * (files.length + 2) % bSize ≠ 0) :
    InUse s.kernelDisk x ↔ s₁.disk.stored x ≠ 0 := by
  obtain ⟨i, q⟩ := x
  rw [InUse, h.stored_kernelDisk]
  cases hV : vol files i with
  | none =>
    have hroot : i ≠ root := by
      rintro rfl
      exact Option.some_ne_none _ ((vol_root files).symm.trans hV)
    have hzero := h.holds.free i hV
    have hst : s₁.disk.stored (i, q) = 0 := by
      rw [FsDisk.stored, hzero]
      exact FsDisk.pointer_of_addrs (fun _ ↦ rfl) q
    refine iff_of_false ?_ fun hne ↦ hne hst
    rintro (⟨bn, hbn, _⟩ | ⟨_, hne⟩)
    · rw [h.dinode_of_ne hroot, hzero] at hbn
      exact Nat.not_lt_zero _ hbn
    · exact hne hst
  | some e =>
    have hneeded := (h.holds.holding i e hV).needed q
    constructor
    · rintro (⟨bn, hbn, hq⟩ | ⟨_, hne⟩)
      · exact hneeded.2 (.inl ⟨bn, (h.lt_size_iff hpart hV bn).1 hbn, hq⟩)
      · exact hne
    · intro hne
      rcases hneeded.1 hne with ⟨bn, hbn, hq⟩ | ⟨hq, _⟩
      · exact .inl ⟨bn, (h.lt_size_iff hpart hV bn).2 hbn, hq⟩
      · exact .inr ⟨hq, hne⟩

theorem Finished.not_dense_root (h : Finished files s₁ s)
    (hwhole : direntSize * (files.length + 2) % bSize = 0) : ¬s.kernelDisk.Dense root := by
  intro hdense
  have hlt : direntSize * (files.length + 2) / bSize * bSize <
      (s.kernelDisk.dinode root).size.toNat := by
    rw [h.size_root]
    simp only [bSize]
    omega
  obtain ⟨q, hq, hne, -⟩ := FsDisk.exists_of_blockAt_ne_zero (hdense _ hlt)
  rw [h.stored_kernelDisk] at hne
  have hneeded := ((h.holds.holding root _ (vol_root files)).needed q).1 hne
  rw [length_rootEntry] at hneeded
  rcases hneeded with ⟨bn, hbn, hq'⟩ | ⟨hlast, _⟩
  · obtain rfl := Pointer.ofBlock_inj hq' hq
    simp only [bSize] at hbn hwhole
    omega
  · exact Pointer.ofBlock_ne_last hq hlast

theorem Finished.dense (h : Finished files s₁ s)
    (hpart : direntSize * (files.length + 2) % bSize ≠ 0) (i : Ino) : s.kernelDisk.Dense i := by
  intro bn hbn
  have hat : s.kernelDisk.blockAt i bn = s₁.disk.blockAt i bn := by
    rw [FsDisk.blockAt, FsDisk.blockAt, h.stored_kernelDisk]
  rw [hat]
  cases hV : vol files i with
  | none =>
    have hroot : i ≠ root := by
      rintro rfl
      exact Option.some_ne_none _ ((vol_root files).symm.trans hV)
    rw [h.dinode_of_ne hroot, h.holds.free i hV] at hbn
    exact absurd hbn (Nat.not_lt_zero _)
  | some e => exact (h.holds.holding i e hV).blockAt_ne ((h.lt_size_iff hpart hV bn).1 hbn)

/-- **The images that mkfs makes.** They are consistent for as many files as there are inodes
besides that of the root directory, unless the entries of the directory fill whole blocks. -/
theorem consistent_iff (h : main files = some s) : Consistent s ↔
    files.length + 1 < nInodes ∧ direntSize * (files.length + 2) % bSize ≠ 0 := by
  have hfree := freeinode_main h
  have hninodes : sb.ninodes.toNat = nInodes := by decide
  constructor
  · intro hc
    have hn : files.length + 1 < nInodes := by
      rw [← hninodes]
      exact hc.inodes _ (Nat.le_add_left 1 _) (by omega)
    obtain ⟨s₁, hf⟩ := finished_of_main (by omega) h
    exact ⟨hn, fun hwhole ↦ hf.not_dense_root hwhole (hc.mapped root)⟩
  · rintro ⟨hn, hpart⟩
    obtain ⟨s₁, hf⟩ := finished_of_main (by omega) h
    have howns := hf.holds.owned.owns
    refine ⟨hf.dense hpart, fun x y hx _ ↦ ?_, fun x hx ↦ ?_, fun b hb ↦ ?_, fun inum _ hlt ↦ ?_⟩
    · rw [hf.stored_kernelDisk]
      exact howns.inj x y ((hf.inUse_iff hpart).1 hx)
    · rw [hf.stored_kernelDisk]
      exact inData_iff.1 (howns.used_of x ((hf.inUse_iff hpart).1 hx)).1
    · -- the blocks below `freeblock` are those in front of the data and those with a place
      have hb' : b.toNat < bpb := by
        have : nBitmap * bpb = bpb := by decide
        omega
      have hge := hf.wf.ge
      have hle := hf.wf.le
      rw [hf.kernelDisk_bitmap hb', decide_eq_true_iff, hf.stored_kernelDisk]
      constructor
      · intro hlt
        by_cases hmeta : b.toNat < nMeta
        · exact .inl hmeta
        · have hused : sb.layout.InData b ∧ s₁.disk.bitmap b = true :=
            ⟨inData_iff.2 ⟨not_lt.1 hmeta, by omega⟩, decide_eq_true (hf.freeblock ▸ hlt)⟩
          obtain ⟨x, hx⟩ := howns.owner b hused
          exact .inr ⟨x, (hf.inUse_iff hpart).2 (hx ▸ howns.ne_zero hused), hx⟩
      · rintro (hlt | ⟨x, hx, rfl⟩)
        · omega
        · have hbit := (howns.used_of x ((hf.inUse_iff hpart).1 hx)).2
          rw [hf.freeblock]
          exact of_decide_eq_true hbit
    · rw [hninodes]
      omega

def shFile : InputFile where
  name := [95, 115, 104]
  contents := [1, 2, 3]
  cstr := by decide

def readmeFile : InputFile where
  name := [82, 69, 65, 68, 77, 69]
  contents := [4, 5]
  cstr := by decide

theorem main_two_files : ∃ s, main [shFile, readmeFile] = some s :=
  main_isSome (by decide) (by decide) (by decide)

theorem consistent_iff_two_files : ∃ s, main [shFile, readmeFile] = some s ∧ Consistent s := by
  obtain ⟨s, hs⟩ := main_two_files
  exact ⟨s, hs, (consistent_iff hs).2 ⟨by decide, by decide⟩⟩

/-- An empty file whose name is `k + 1` times the letter `a`. -/
def emptyFile (k : ℕ) : InputFile where
  name := List.replicate (k + 1) 97
  contents := []
  cstr h := absurd (List.eq_of_mem_replicate h) (by decide)

/-- Thirty files: with `"."` and `".."`, the directory has the 32 entries of one block. -/
theorem exists_inconsistent :
    ∃ s, main ((List.range 30).map emptyFile) = some s ∧ ¬Consistent s := by
  have hok : ∀ f ∈ (List.range 30).map emptyFile,
      slash ∉ f.name ∧ f.contents.length ≤ maxFile * bSize := by
    intro f hf
    obtain ⟨k, _, rfl⟩ := List.mem_map.1 hf
    exact ⟨fun h ↦ absurd (List.eq_of_mem_replicate h) (by decide), Nat.zero_le _⟩
  obtain ⟨s, hs⟩ := main_isSome (by decide) (by decide) hok
  have hn : ((List.range 30).map emptyFile).length < nInodes := by decide
  obtain ⟨s₁, hf⟩ := finished_of_main hn hs
  exact ⟨s, hs, fun hc ↦ hf.not_dense_root (by decide) (hc.mapped root)⟩

end Mkfs

end OperatingSystems
