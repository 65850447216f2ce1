import OperatingSystems.Mkfs.Basic

/-!
# The two block layers agree

What mkfs does to its image is what the kernel's inode layer would do to the disk: `iappend` maps
and fills blocks as the loop of `writei` does, with `freeblock` in the place of the free bit map.
`disk` reads the state of mkfs as a disk of the kernel, in which the blocks below `freeblock` are
marked. The first free block is then the one that mkfs takes, and it is zero already.

Where the kernel would panic for lack of blocks, mkfs reads behind the end of its image and gives
up.
-/

namespace OperatingSystems

open Function

theorem FsDisk.eq_of_fields {n : ℕ} {d d' : FsDisk n} (h₁ : d.bitmap = d'.bitmap)
    (h₂ : d.dinode = d'.dinode) (h₃ : d.data = d'.data) : d = d' := by
  cases d
  cases d'
  subst h₁ h₂ h₃
  rfl

namespace Mkfs

/-- The inodes with a number up to `NINODES`: inode `i + 1` is at index `i`. -/
abbrev Ino := Fin nInodes

variable {s s' : Mkfs} {din : Dinode} {b : Word} {i : Ino} {fbn : ℕ}

theorem layout_size : sb.layout.size = fssize := by decide

theorem layout_datastart : sb.layout.datastart = nMeta := by decide

theorem inData_iff : sb.layout.InData b ↔ nMeta ≤ b.toNat ∧ b.toNat < fssize := by
  rw [Layout.InData, layout_size, layout_datastart]

/-! ## Sectors -/

theorem sector_of_lt (h : b.toNat < 2 ^ 23) : sector b = b.toNat := by
  simp only [sector, bSize]
  omega

theorem sector_of_le (h : b.toNat ≤ fssize) : sector b = b.toNat :=
  sector_of_lt (by simp only [fssize] at h; omega)

theorem toNat_iblock (i : Ino) : (sb.iblock (i + 1)).toNat = 2 + logSize + (i.val + 1) / ipb := by
  have hi := i.isLt
  simp only [Sb.iblock, sb, BitVec.toNat_add, BitVec.toNat_ofNat, nInodes, ipb, logSize,
    maxOpBlocks] at hi ⊢
  omega

theorem sector_iblock (i : Ino) : sector (sb.iblock (i + 1)) = 2 + logSize + (i.val + 1) / ipb := by
  have hi := i.isLt
  rw [sector_of_lt, toNat_iblock]
  rw [toNat_iblock]
  simp only [nInodes, ipb, logSize, maxOpBlocks] at hi ⊢
  omega

theorem sector_iblock_lt (i : Ino) :
    1 < sector (sb.iblock (i + 1)) ∧ sector (sb.iblock (i + 1)) + 1 < nMeta := by
  have hi := i.isLt
  rw [sector_iblock]
  simp only [nMeta, nInodeBlocks, nBitmap, fssize, bSize, nInodes, ipb, logSize, maxOpBlocks] at *
  omega

theorem nMeta_lt : nMeta < fssize := by decide

/-! ## The image as a disk -/

def disk (s : Mkfs) : FsDisk nInodes where
  bitmap b := decide (b.toNat < s.freeblock)
  dinode i := (s.img (sector (sb.iblock (i + 1)))).getDinode ((i + 1) % ipb)
  data b := if nMeta ≤ b.toNat ∧ b.toNat < fssize then s.img b.toNat else fun _ ↦ 0

structure Wf (s : Mkfs) : Prop where
  len : s.len = fssize
  ge : nMeta ≤ s.freeblock
  le : s.freeblock ≤ fssize
  /-- Nothing was written to a block that is not taken. -/
  zero : ∀ x, s.freeblock ≤ x → x < fssize → s.img x = fun _ ↦ 0
  super : s.img 1 = Block.putSb sb

theorem rsect_eq (h : s.len = fssize) (hb : b.toNat < fssize) :
    s.rsect b = some (s.img b.toNat) := by
  have hsec := sector_of_le hb.le
  rw [rsect, hsec, h, if_pos hb]

theorem rsect_eq_data (h : s.len = fssize) (hb : sb.layout.InData b) :
    s.rsect b = some (s.disk.data b) := by
  rw [rsect_eq h (inData_iff.1 hb).2]
  exact congrArg some (if_pos (inData_iff.1 hb)).symm

theorem len_wsect (h : s.len = fssize) (hb : sector b < fssize) (c : Block) :
    (s.wsect b c).len = fssize := by
  rw [wsect, h]
  exact max_eq_left hb

theorem disk_wsect (hb : sb.layout.InData b) (c : Block) :
    (s.wsect b c).disk = s.disk.write b c := by
  have hb' := inData_iff.1 hb
  have hsec := sector_of_le hb'.2.le
  refine FsDisk.eq_of_fields rfl (funext fun i ↦ ?_) (funext fun x ↦ ?_)
  · have hlt := (sector_iblock_lt i).2
    have hne : sector (sb.iblock (i + 1)) ≠ sector b := by omega
    simp only [disk, wsect, FsDisk.write_dinode, update_of_ne hne]
  · by_cases hx : x = b
    · subst hx
      simp only [disk, wsect, FsDisk.write_data, update_self, hsec, if_pos hb']
    · have hne : x.toNat ≠ b.toNat := fun h ↦ hx (BitVec.eq_of_toNat_eq h)
      simp only [disk, wsect, FsDisk.write_data, hsec, update_of_ne hx,
        update_of_ne hne]

theorem Wf.wsect (h : Wf s) (hb : sb.layout.InData b) (hlt : b.toNat < s.freeblock) (c : Block) :
    Wf (s.wsect b c) := by
  have hb' := inData_iff.1 hb
  have hsec := sector_of_le hb'.2.le
  refine ⟨len_wsect h.len (hsec ▸ hb'.2) c, h.ge, h.le, fun x hx hx' ↦ ?_, ?_⟩
  · have hne : x ≠ sector b := by
      have hx : s.freeblock ≤ x := hx
      omega
    exact (update_of_ne hne ..).trans (h.zero x hx hx')
  · have hne : 1 ≠ sector b := by
      have : 1 < nMeta := by decide
      omega
    exact (update_of_ne hne ..).trans h.super

/-! ## Inodes -/

theorem rinode_eq (h : s.len = fssize) (i : Ino) : s.rinode (i + 1) = some (s.disk.dinode i) := by
  have hlt := (sector_iblock_lt i).2
  have hmeta := nMeta_lt
  rw [rinode, rsect, if_pos (by omega)]
  rfl

theorem winode_eq (h : Wf s) (i : Ino) (ip : Dinode) :
    ∃ s', s.winode (i + 1) ip = some s' ∧ s'.disk = s.disk.iupdate i ip ∧ Wf s' ∧
      s'.freeblock = s.freeblock ∧ s'.freeinode = s.freeinode := by
  obtain ⟨hgt, hlt⟩ := sector_iblock_lt i
  have hmeta := nMeta_lt
  have hlen := h.len
  have hge := h.ge
  have hr : s.rsect (sb.iblock (i + 1)) = some (s.img (sector (sb.iblock (i + 1)))) := by
    rw [rsect, if_pos (by omega)]
  refine ⟨s.wsect (sb.iblock (i + 1))
    ((s.img (sector (sb.iblock (i + 1)))).putDinode ((i + 1) % ipb) ip), ?_, ?_, ?_, rfl, rfl⟩
  · rw [winode, hr]
    rfl
  · refine FsDisk.eq_of_fields rfl (funext fun j ↦ ?_) (funext fun x ↦ ?_)
    · have hmod : (j.val + 1) % ipb < ipb := Nat.mod_lt _ (by decide)
      by_cases hji : j = i
      · subst hji
        simp only [disk, Mkfs.wsect, FsDisk.iupdate_dinode, update_self,
          Block.getDinode_putDinode _ _ _ hmod, if_true]
      · rw [FsDisk.iupdate_dinode, update_of_ne hji]
        have hval : j.val ≠ i.val := fun h ↦ hji (Fin.ext h)
        by_cases hsec : sector (sb.iblock (j + 1)) = sector (sb.iblock (i + 1))
        · -- another inode of the same block
          have hne : (j.val + 1) % ipb ≠ (i.val + 1) % ipb := by
            rw [sector_iblock, sector_iblock] at hsec
            simp only [ipb] at hsec ⊢
            omega
          simp only [disk, Mkfs.wsect, hsec, update_self,
            Block.getDinode_putDinode _ _ _ hmod, if_neg hne]
        · simp only [disk, Mkfs.wsect, update_of_ne hsec]
    · simp only [disk, Mkfs.wsect, FsDisk.iupdate_data]
      split
      · next hx =>
        rw [update_of_ne (by omega)]
      · rfl
  · refine ⟨len_wsect h.len (by omega) _, h.ge, h.le, fun x hx hx' ↦ ?_, ?_⟩
    · have hx : s.freeblock ≤ x := hx
      exact (update_of_ne (by omega) ..).trans (h.zero x hx hx')
    · exact (update_of_ne (by omega) ..).trans h.super

/-! ## Taking a block -/

theorem toNat_next (h : s.freeblock ≤ fssize) : s.next.toNat = s.freeblock := by
  simp only [fssize] at h
  rw [next, BitVec.toNat_ofNat, Nat.mod_eq_of_lt (by omega)]

theorem Wf.take (h : Wf s) (hlt : s.freeblock < fssize) : Wf s.take :=
  ⟨h.len, h.ge.trans (Nat.le_succ _), hlt, fun x hx hx' ↦ h.zero x (Nat.le_of_succ_le hx) hx',
    h.super⟩

theorem balloc_disk (h : Wf s) (hlt : s.freeblock < fssize) :
    s.disk.balloc sb.layout = .ok (s.take.disk, s.next) := by
  have hnext := toNat_next hlt.le
  have hfind : ((List.range sb.layout.size).map (BitVec.ofNat 32)).find?
      (fun b ↦ !s.disk.bitmap b) = some s.next := by
    rw [layout_size, List.find?_map]
    have hrange : (List.range fssize).find? ((fun b ↦ !s.disk.bitmap b) ∘ BitVec.ofNat 32) =
        some s.freeblock := by
      rw [List.find?_range_eq_some]
      refine ⟨?_, List.mem_range.2 hlt, fun j hj ↦ ?_⟩
      · have hnot : ¬s.next.toNat < s.freeblock := by omega
        simp only [Function.comp_apply, disk, Bool.not_eq_true', decide_eq_false_iff_not]
        exact hnot
      · have hj' : (BitVec.ofNat 32 j).toNat = j := by
          simp only [fssize] at hlt
          rw [BitVec.toNat_ofNat, Nat.mod_eq_of_lt (by omega)]
        simp only [Function.comp_apply, disk, hj', hj, decide_true, Bool.not_true, Bool.not_false]
    rw [hrange]
    rfl
  rw [FsDisk.balloc, hfind]
  refine congrArg (fun d ↦ Except.ok (d, s.next)) ?_
  refine FsDisk.eq_of_fields (funext fun x ↦ ?_) rfl (funext fun x ↦ ?_)
  · rw [FsDisk.write_bitmap, FsDisk.mark_bitmap]
    by_cases hx : x = s.next
    · subst hx
      rw [update_self]
      simp only [disk, Mkfs.take, hnext, Nat.lt_succ_self, decide_true]
    · have hne : x.toNat ≠ s.freeblock := fun h ↦ hx (BitVec.eq_of_toNat_eq (h.trans hnext.symm))
      rw [update_of_ne hx]
      refine decide_eq_decide.2 (?_ : x.toNat < s.freeblock ↔ x.toNat < s.freeblock + 1)
      omega
  · rw [FsDisk.write_data, FsDisk.mark_data]
    by_cases hx : x = s.next
    · subst hx
      rw [update_self]
      simp only [disk, Mkfs.take, hnext]
      rw [h.zero s.freeblock le_rfl hlt, ite_self]
    · rw [update_of_ne hx]
      rfl

variable {c : Block} {r : Mkfs × Dinode × Word}

theorem lt_of_rsect_next {t : Mkfs} (h : Wf s) (ht : t.len = fssize)
    (hr : t.rsect s.next = some c) :
    s.freeblock < fssize := by
  have hnext := toNat_next h.le
  rw [rsect, sector_of_le (hnext ▸ h.le), hnext, ht] at hr
  by_contra hlt
  rw [if_neg hlt] at hr
  exact Option.some_ne_none _ hr.symm

/-! ## Mapping a block -/

theorem takeIndirect_disk (h : Wf s)
    (hc : (s.takeIndirect din).1.rsect (s.takeIndirect din).2.indirect = some c) :
    s.disk.loadIndirect sb.layout din =
      .ok ((s.takeIndirect din).1.disk, (s.takeIndirect din).2) ∧ Wf (s.takeIndirect din).1 := by
  unfold takeIndirect FsDisk.loadIndirect at *
  split at hc
  · next h₀ =>
    have hnext : (din.setAddr (Fin.last ndirect) s.next).indirect = s.next := by
      rw [Dinode.indirect, Dinode.setAddr_addrs, update_self]
    rw [hnext] at hc
    have hlt := lt_of_rsect_next h (t := s.take) h.len hc
    rw [if_pos h₀, if_pos h₀, balloc_disk h hlt]
    exact ⟨rfl, h.take hlt⟩
  · next h₀ =>
    rw [if_neg h₀, if_neg h₀]
    exact ⟨rfl, h⟩

theorem takeEntry_disk {j : Fin nindirect} (h : Wf s) (hd : sb.layout.InData din.indirect)
    (hlt : din.indirect.toNat < s.freeblock) (hr : s.takeEntry din j = some r)
    (hc : r.1.rsect r.2.2 = some c) :
    s.disk.indirectEntry sb.layout din j = .ok (r.1.disk, r.2.1, r.2.2) ∧ Wf r.1 := by
  have hsec := sector_of_le (inData_iff.1 hd).2.le
  rw [takeEntry, rsect_eq_data h.len hd] at hr
  dsimp only [bind, Option.bind] at hr
  unfold FsDisk.indirectEntry
  split at hr
  · next h₀ =>
    obtain rfl := Option.some.inj hr
    have hlen := len_wsect (s := s.take) (b := din.indirect) h.len (hsec ▸ (inData_iff.1 hd).2)
      (update (s.disk.data din.indirect) j s.next)
    have hlt' := lt_of_rsect_next h hlen hc
    have hdata : s.take.disk.data = s.disk.data := rfl
    rw [if_pos h₀, balloc_disk h hlt', disk_wsect hd, ← hdata]
    exact ⟨rfl, (h.take hlt').wsect hd (Nat.lt_succ_of_lt hlt) _⟩
  · next h₀ =>
    obtain rfl := Option.some.inj hr
    rw [if_neg h₀]
    exact ⟨rfl, h⟩

theorem taken_of_stored {x : Ino × Pointer} (ho : (s.disk.iupdate i din).Owned sb.layout)
    (hx : (s.disk.iupdate i din).stored x = b) (hb : b ≠ 0) :
    sb.layout.InData b ∧ b.toNat < s.freeblock := by
  obtain ⟨hin, hbit⟩ := ho.owns.used_of x (hx ▸ hb)
  rw [hx] at hin hbit
  exact ⟨hin, of_decide_eq_true hbit⟩

theorem mapBlock_disk (h : Wf s) (ho : (s.disk.iupdate i din).Owned sb.layout) (hi : din.type ≠ 0)
    (hr : s.mapBlock din fbn = some r) (hc : r.1.rsect r.2.2 = some c) :
    s.disk.bmap sb.layout din fbn = .ok (r.1.disk, r.2.1, r.2.2) ∧ Wf r.1 := by
  unfold mapBlock at hr
  unfold FsDisk.bmap
  by_cases hdir : fbn < ndirect
  · rw [dif_pos hdir] at hr ⊢
    dsimp only at hr ⊢
    split at hr
    · next h₀ =>
      obtain rfl := Option.some.inj hr
      have hlt := lt_of_rsect_next h (t := s.take) h.len hc
      rw [if_pos h₀, balloc_disk h hlt]
      exact ⟨rfl, h.take hlt⟩
    · next h₀ =>
      obtain rfl := Option.some.inj hr
      rw [if_neg h₀]
      exact ⟨rfl, h⟩
  · rw [dif_neg hdir] at hr ⊢
    by_cases hind : fbn - ndirect < nindirect
    · rw [dif_pos hind] at hr ⊢
      dsimp only at hr
      obtain ⟨c', hc', _⟩ := Option.bind_eq_some_iff.1 hr
      obtain ⟨hload, hwf⟩ := takeIndirect_disk h hc'
      -- the indirect block is one of the inode's own
      obtain ⟨hg, hne, _⟩ := (FsDisk.loadIndirect_spec ho hi).of_ok hload
      have hlast := FsDisk.indirect_eq_stored_self (d := (s.takeIndirect din).1.disk) (i := i)
        (hg.type ▸ hi)
      obtain ⟨hin, hlt⟩ := taken_of_stored hg.owned hlast hne
      rw [hload]
      exact takeEntry_disk hwf hin hlt hr hc
    · rw [dif_neg hind] at hr
      exact absurd hr.symm (Option.some_ne_none r)

/-! ## The loop of `iappend` -/

theorem round_eq (off n : ℕ) : min n ((off / bSize + 1) * bSize - off) = FsDisk.chunk off n ∧
    off - off / bSize * bSize = off % bSize := by
  simp only [FsDisk.chunk, bSize]
  omega

/-- **`iappend` is `writei`**: the two loops do the same. -/
theorem appendLoop_disk (fuel : ℕ) : ∀ {s : Mkfs} {din : Dinode} (off n : ℕ) (p : ℕ → BitVec 8)
    {r : Mkfs × Dinode}, Wf s → (s.disk.iupdate i din).Owned sb.layout → din.type ≠ 0 →
    appendLoop fuel s din off n p = some r →
    FsDisk.writeLoop sb.layout fuel s.disk din off n p = .ok (r.1.disk, r.2) ∧ Wf r.1 := by
  induction fuel with
  | zero =>
    intro s din off n p r h ho hi hr
    obtain rfl := Option.some.inj hr
    exact ⟨rfl, h⟩
  | succ fuel ih =>
    intro s din off n p r h ho hi hr
    rw [appendLoop] at hr
    rw [FsDisk.writeLoop]
    by_cases hn : n = 0
    · rw [if_pos hn] at hr ⊢
      obtain rfl := Option.some.inj hr
      exact ⟨rfl, h⟩
    · rw [if_neg hn] at hr ⊢
      obtain ⟨r₁, hmap, hr⟩ := Option.bind_eq_some_iff.1 hr
      obtain ⟨buf, hbuf, hr⟩ := Option.bind_eq_some_iff.1 hr
      obtain ⟨hbmap, hwf⟩ := mapBlock_disk h ho hi hmap hbuf
      obtain ⟨q, hq, hm, -⟩ := (FsDisk.bmap_spec ho hi _).of_ok hbmap
      obtain ⟨hin, hlt⟩ := taken_of_stored hm.grown.owned hm.addr hm.ne_zero
      obtain rfl : r₁.1.disk.data r₁.2.2 = buf :=
        Option.some.inj ((rsect_eq_data hwf.len hin).symm.trans hbuf)
      have hw := FsDisk.Grown.write hm.grown.owned (Pointer.ofBlock_ne_last hq) hm.addr hm.ne_zero
        ((r₁.1.disk.data r₁.2.2).store (off % bSize) (FsDisk.chunk off n) p)
      obtain ⟨hchunk, hoff⟩ := round_eq off n
      rw [hchunk, hoff] at hr
      rw [hbmap]
      have hrest := ih _ _ _ (hwf.wsect hin hlt _) (by rw [disk_wsect hin]; exact hw.owned)
        (hm.grown.type ▸ hi) hr
      rw [disk_wsect hin] at hrest
      exact hrest

end Mkfs

end OperatingSystems
