import OperatingSystems.Fs.Writeback
import OperatingSystems.Mkfs.Lookup

/-!
# The kernel on an image of mkfs

The inode layer of the kernel can start from the image that mkfs writes. So what holds in its runs
from a consistent disk holds from the first boot on.
-/

namespace OperatingSystems

namespace Mkfs

variable {s s₁ : Mkfs} {files : List InputFile}

theorem Finished.owned_kernelDisk (h : Finished files s₁ s) : s.kernelDisk.Owned sb.layout := by
  have hbit : ∀ b : BlockNo, b.toNat < fssize → s.kernelDisk.bitmap b = s₁.disk.bitmap b := by
    intro b hb
    rw [h.kernelDisk_bitmap (hb.trans (by decide)), h.freeblock]
    rfl
  refine ⟨h.holds.owned.owns.congr (fun x ↦ congrFun h.stored_kernelDisk x) fun b ↦ ?_,
    fun b hb ↦ ?_⟩
  · refine and_congr_right fun hb ↦ ?_
    rw [hbit b (inData_iff.1 hb).2]
  · rw [hbit b ((layout_datastart ▸ hb).trans nMeta_lt)]
    exact h.holds.owned.reserved b hb

/-- **The first boot, and what comes after it.** On an image that mkfs has written, with a root
directory that does not fill whole blocks, in every run of the inode layer: the places in inodes and
indirect blocks own the data blocks that are marked, no file has a hole, an entry that is in use and
not locked agrees with the disk, and no block is freed that is free. -/
theorem inode_layer_on_image {π : Type} [DecidableEq π] [Fintype π] (h : main files = some s)
    (hn : files.length < nInodes) (hpart : direntSize * (files.length + 2) % bSize ≠ 0)
    {t : Icache nInodes π}
    (ht : (icache (s.img 1).getSb.layout π (· = s.kernelDisk)).Reachable t) :
    (∀ dev, (t.disk dev).Owned (s.img 1).getSb.layout) ∧
    (∀ dev i, ((t.disk dev).dinode i).type ≠ 0 → (t.disk dev).Dense i) ∧
    (∀ e, 0 < (t.inode e).ref → (t.inode e).valid = true → t.lock e = none →
      (t.inode e).fields = t.dinodeOf e) ∧
    ∀ a, t.act (s.img 1).getSb.layout a ≠ .error (.panic .freeingFreeBlock) := by
  obtain ⟨s₁, hf⟩ := finished_of_main hn h
  rw [hf.wf.super, Block.getSb_putSb] at ht ⊢
  have hinv : t.Inv sb.layout True False := by
    refine Icache.inv_of_reachableUnder (fun d hd ↦ ?_) (fun _ _ _ ↦ ⟨.inl trivial, False.elim⟩) ht
    rw [hd]
    exact ⟨hf.owned_kernelDisk, fun _ i _ ↦ hf.dense hpart i⟩
  refine ⟨hinv.owned, hinv.dense trivial, fun e href hv hl ↦ ?_, fun a hstop ↦ ?_⟩
  · exact (hinv.coherent e (.inl href) hv (hinv.not_freed_of_unlocked hl)).1
  · exact (hinv.act a (.inl trivial) False.elim).of_error hstop rfl

/-- On an image with two files, a process takes the root directory, locks it, which reads it from
the disk, and unlocks it. -/
theorem inode_layer_on_image_root : ∃ s, main [shFile, readmeFile] = some s ∧
    ∃ t : Icache nInodes Unit,
      (icache (s.img 1).getSb.layout Unit (· = s.kernelDisk)).Reachable t ∧
      (t.inode 0).inum = root ∧ (t.inode 0).valid = true ∧ (t.inode 0).fields = t.dinodeOf 0 ∧
      (t.disk 1).Owned (s.img 1).getSb.layout := by
  obtain ⟨s, hs⟩ := main_two_files
  obtain ⟨s₁, hf⟩ := finished_of_main (by decide) hs
  have htype : (s.kernelDisk.dinode root).type ≠ 0 := by
    rw [(hf.dinode_type (vol_root _)).1]
    exact (rootEntry _).allocated
  set M := icache (s.img 1).getSb.layout Unit (· = s.kernelDisk)
  set t₀ : Icache nInodes Unit := .boot root fun _ ↦ s.kernelDisk
  set t₁ := (t₀.setInode 0 ⟨1, root, 1, false, .zero⟩).give () 0
  set t₂ := (t₁.setLock 0 (some ())).setInode 0
    { t₁.inode 0 with valid := true, fields := t₁.dinodeOf 0 }
  have h₁ : M.step t₀ (.iget () 1 root) = some t₁ := rfl
  have h₂ : M.step t₁ (.ilock () 0) = some t₂ :=
    congrArg Except.toOption (if_neg htype)
  have h₃ : M.step t₂ (.iunlock () 0) = some (t₂.setLock 0 none) := rfl
  have h₀ : M.Reachable t₀ := .init ⟨Icache.booted_boot _ _, fun _ ↦ rfl⟩
  have ht : M.Reachable (t₂.setLock 0 none) := ((h₀.step h₁).step h₂).step h₃
  obtain ⟨howned, -, hcoherent, -⟩ := inode_layer_on_image hs (by decide) (by decide) ht
  exact ⟨s, hs, _, ht, rfl, rfl, hcoherent 0 Nat.one_pos rfl rfl, howned 1⟩

end Mkfs

end OperatingSystems
