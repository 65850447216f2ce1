import OperatingSystems.Fs.Holding
import OperatingSystems.Mkfs.Refine

/-!
# What mkfs puts on its image

A volume says what every inode is to hold: nothing, or a type and a list of bytes. `Holds` says that
the image of a running mkfs holds a volume, and that its blocks are accounted for. The two ways to
change the image then are changes of the volume: `ialloc` adds an empty entry and `iappend` adds
bytes to one.

Whether `iappend` comes through is a matter of room. The blocks that are taken have one place each,
so where the places that all entries will ever need are no more than the blocks of the data area,
there is a block left for every place that is still empty.
-/

namespace OperatingSystems

open Function

namespace Mkfs

variable {s s' : Mkfs} {din : Dinode} {i : Ino} {e : Content} {xp : List (BitVec 8)} {inum : ℕ}
  {r : Mkfs × Dinode × Word}

/-! ## The counter of inodes -/

theorem freeinode_winode {ip : Dinode} (h : s.winode inum ip = some s') :
    s'.freeinode = s.freeinode := by
  obtain ⟨buf, _, h⟩ := Option.bind_eq_some_iff.1 h
  obtain rfl := Option.some.inj h
  rfl

theorem freeinode_takeIndirect : (s.takeIndirect din).1.freeinode = s.freeinode := by
  unfold takeIndirect
  split
  · rfl
  · rfl

theorem freeinode_takeEntry {j : Fin nindirect} (h : s.takeEntry din j = some r) :
    r.1.freeinode = s.freeinode := by
  obtain ⟨buf, _, h⟩ := Option.bind_eq_some_iff.1 h
  split at h
  · obtain rfl := Option.some.inj h
    rfl
  · obtain rfl := Option.some.inj h
    rfl

theorem freeinode_mapBlock {fbn : ℕ} (h : s.mapBlock din fbn = some r) :
    r.1.freeinode = s.freeinode := by
  unfold mapBlock at h
  split at h
  · dsimp only at h
    split at h
    · obtain rfl := Option.some.inj h
      rfl
    · obtain rfl := Option.some.inj h
      rfl
  · split at h
    · exact (freeinode_takeEntry h).trans freeinode_takeIndirect
    · exact absurd h.symm (Option.some_ne_none r)

theorem freeinode_appendLoop (fuel : ℕ) : ∀ {s : Mkfs} {din : Dinode} {off n : ℕ}
    {p : ℕ → BitVec 8} {r : Mkfs × Dinode}, appendLoop fuel s din off n p = some r →
    r.1.freeinode = s.freeinode := by
  induction fuel with
  | zero =>
    intro s din off n p r h
    obtain rfl := Option.some.inj h
    rfl
  | succ fuel ih =>
    intro s din off n p r h
    rw [appendLoop] at h
    split at h
    · obtain rfl := Option.some.inj h
      rfl
    · obtain ⟨r₁, hmap, h⟩ := Option.bind_eq_some_iff.1 h
      obtain ⟨buf, _, h⟩ := Option.bind_eq_some_iff.1 h
      exact (ih h).trans (freeinode_mapBlock hmap)

theorem freeinode_iappend (h : s.iappend inum xp = some s') : s'.freeinode = s.freeinode := by
  obtain ⟨din, _, h⟩ := Option.bind_eq_some_iff.1 h
  obtain ⟨r, hr, h⟩ := Option.bind_eq_some_iff.1 h
  exact (freeinode_winode h).trans (freeinode_appendLoop _ hr)

theorem freeinode_appendFile (fuel : ℕ) : ∀ {s : Mkfs} {bytes : List (BitVec 8)},
    appendFile inum fuel s bytes = some s' → s'.freeinode = s.freeinode := by
  induction fuel with
  | zero =>
    intro s bytes h
    obtain rfl := Option.some.inj h
    rfl
  | succ fuel ih =>
    intro s bytes h
    rw [appendFile] at h
    split at h
    · obtain rfl := Option.some.inj h
      rfl
    · obtain ⟨s₁, h₁, h⟩ := Option.bind_eq_some_iff.1 h
      exact (ih h).trans (freeinode_iappend h₁)

theorem freeinode_ialloc {type : BitVec 16} {r : Mkfs × ℕ} (h : s.ialloc type = some r) :
    r.1.freeinode = s.freeinode + 1 ∧ r.2 = s.freeinode := by
  obtain ⟨s₁, h₁, h⟩ := Option.bind_eq_some_iff.1 h
  obtain rfl := Option.some.inj h
  exact ⟨freeinode_winode h₁, rfl⟩

/-! ## Volumes -/

abbrev Volume := Ino → Option Content

variable {V : Volume}

/-- The image holds the volume, and every block that was taken is in its place. -/
structure Holds (s : Mkfs) (V : Volume) : Prop where
  wf : Wf s
  owned : s.disk.Owned sb.layout
  free : ∀ i, V i = none → s.disk.dinode i = Dinode.zero
  holding : ∀ i e, V i = some e → s.disk.Holding i e

theorem Holds.put (h : Holds s V) (hwf : Wf s') (ho : s'.disk.Owned sb.layout)
    (hi : s'.disk.Holding i e) (hl : ∀ j, j ≠ i → FsDisk.Leaves j s.disk s'.disk) :
    Holds s' (update V i (some e)) := by
  refine ⟨hwf, ho, fun j hj ↦ ?_, fun j e' hj ↦ ?_⟩
  · by_cases hji : j = i
    · rw [hji, update_self] at hj
      exact absurd hj (Option.some_ne_none e)
    · rw [update_of_ne hji] at hj
      rw [(hl j hji).dinode]
      exact h.free j hj
  · by_cases hji : j = i
    · rw [hji, update_self] at hj
      obtain rfl := Option.some.inj hj
      rw [hji]
      exact hi
    · rw [update_of_ne hji] at hj
      exact (h.holding j e' hj).leaves (hl j hji)

/-- **`ialloc` adds an empty entry.** -/
theorem Holds.ialloc {t : BitVec 16} (h : Holds s V) (hi : s.freeinode = i + 1) (hV : V i = none)
    (ht : t ≠ 0) : ∃ s', s.ialloc t = some (s', i.val + 1) ∧
      Holds s' (update V i (some ⟨t, [], ht⟩)) ∧ s'.freeinode = i + 2 := by
  have hwf := h.wf
  obtain ⟨s', hs', hdisk, hwf', -, hfree⟩ := winode_eq
    (s := { s with freeinode := s.freeinode + 1 }) ⟨hwf.len, hwf.ge, hwf.le, hwf.zero, hwf.super⟩ i
    { Dinode.zero with type := t, nlink := 1, size := 0 }
  have hdisk : s'.disk = s.disk.iupdate i { Dinode.zero with type := t, nlink := 1, size := 0 } :=
    hdisk
  -- neither the old nor the new inode has a block
  have hnone : ∀ q, s'.disk.stored (i, q) = 0 := fun q ↦ by
    rw [hdisk, FsDisk.stored_iupdate_self]
    exact FsDisk.pointer_of_addrs (fun _ ↦ rfl) q
  have hst : s'.disk.stored = s.disk.stored := by
    funext ⟨j, q⟩
    by_cases hj : j = i
    · rw [hj, hnone, FsDisk.stored, h.free i hV]
      exact (FsDisk.pointer_of_addrs (fun _ ↦ rfl) q).symm
    · rw [hdisk, FsDisk.stored_iupdate_of_ne hj]
  refine ⟨s', ?_, h.put hwf' ?_ ?_ fun j hj ↦ ?_, ?_⟩
  · rw [Mkfs.ialloc, hi]
    rw [hi] at hs'
    rw [hs']
    rfl
  · exact h.owned.congr hst (by rw [hdisk]; rfl)
  · have hd : s'.disk.dinode i = { Dinode.zero with type := t, nlink := 1, size := 0 } := by
      rw [hdisk, FsDisk.iupdate_dinode, update_self]
    refine ⟨by rw [hd], by rw [hd], by rw [hd]; rfl, Nat.zero_le _, fun q ↦ ?_, fun x hx ↦ ?_⟩
    · exact iff_of_false (fun hne ↦ hne (hnone q)) (Pointer.not_needed_zero q)
    · exact absurd hx (Nat.not_lt_zero x)
  · rw [hdisk]
    exact .of_iupdate hj
  · rw [hfree, hi]

/-! ## Appending -/

/-- **`iappend` adds bytes to an entry.** -/
theorem Holds.iappend (h : Holds s V) (hi : V i = some e)
    (hs : s.iappend (i + 1) xp = some s') :
    Holds s' (update V i (some (e.append xp))) := by
  have hold := h.holding i e hi
  have ho : (s.disk.iupdate i (s.disk.dinode i)).Owned sb.layout := by
    rw [FsDisk.iupdate_self]
    exact h.owned
  rw [Mkfs.iappend, rinode_eq h.wf.len] at hs
  dsimp only [bind, Option.bind] at hs
  rw [hold.size] at hs
  obtain ⟨r, hr, hs⟩ := Option.bind_eq_some_iff.1 hs
  obtain ⟨hloop, hwf⟩ := appendLoop_disk _ _ _ _ h.wf ho hold.type_ne hr
  have hw := (FsDisk.writeLoop_spec _ ho hold.type_ne le_rfl).of_ok hloop
  have hst := (FsDisk.writeLoop_stores _ _ _ _ ho hold.type_ne le_rfl).of_ok hloop
  obtain ⟨s₁, hs₁, hdisk, hwf₁, -, -⟩ := winode_eq hwf i
    { r.2 with size := BitVec.ofNat 32 (e.bytes.length + xp.length) }
  obtain rfl : s₁ = s' := Option.some.inj (hs₁.symm.trans hs)
  refine h.put hwf₁ ?_ ?_ fun j hj ↦ ?_
  · rw [hdisk]
    exact hw.grown.owned.congr (FsDisk.stored_iupdate_congr rfl rfl) rfl
  · rw [hdisk]
    exact hold.append hw hst
  · -- the size of inode `i` is all that the last write adds
    have hlast : s₁.disk = (r.1.disk.iupdate i r.2).iupdate i
        { r.2 with size := BitVec.ofNat 32 (e.bytes.length + xp.length) } :=
      hdisk.trans FsDisk.iupdate_iupdate.symm
    rw [hlast]
    exact (FsDisk.leaves_of_write hw hst hj).trans (.of_iupdate hj)

/-! ## Room -/

/-- All places with a block are listed in `P`, by the index of their inode. -/
def Covered (P : List (ℕ × Pointer)) (d : FsDisk nInodes) : Prop :=
  ∀ x, d.stored x ≠ 0 → (x.1.val, x.2) ∈ P

variable {P : List (ℕ × Pointer)}

theorem lt_of_covered {x : Ino × Pointer} (hge : nMeta ≤ s.freeblock)
    (hle : s.freeblock ≤ fssize) {d : FsDisk nInodes} (hbit : d.bitmap = s.disk.bitmap)
    (ho : d.Owned sb.layout) (hP : Covered P d) (hcap : P.length ≤ fssize - nMeta)
    (hx : (x.1.val, x.2) ∈ P) (hx₀ : d.stored x = 0) : s.freeblock < fssize := by
  -- the block in a listed place
  let block : ℕ × Pointer → ℕ := fun y ↦
    if h : y.1 < nInodes then (d.stored (⟨y.1, h⟩, y.2)).toNat else 0
  have hblock : ∀ y : Ino × Pointer, block (y.1.val, y.2) = (d.stored y).toNat := fun y ↦
    dif_pos y.1.isLt
  have hsub : List.range' nMeta (s.freeblock - nMeta) ⊆ (P.erase (x.1.val, x.2)).map block := by
    intro b hb
    obtain ⟨hb₁, hb₂⟩ := List.mem_range'_1.1 hb
    have hb' : (BitVec.ofNat 32 b).toNat = b := by
      simp only [fssize] at hle
      rw [BitVec.toNat_ofNat, Nat.mod_eq_of_lt (by omega)]
    have hused : sb.layout.InData (BitVec.ofNat 32 b) ∧ d.bitmap (BitVec.ofNat 32 b) = true := by
      rw [inData_iff, hbit, hb']
      refine ⟨by omega, decide_eq_true ?_⟩
      rw [hb']
      omega
    obtain ⟨y, hy⟩ := ho.owns.owner _ hused
    have hy₀ : d.stored y ≠ 0 := hy ▸ ho.owns.ne_zero hused
    have hne : ((y.1.val, y.2) : ℕ × Pointer) ≠ (x.1.val, x.2) := by
      intro heq
      obtain ⟨h₁, h₂⟩ := Prod.mk.inj heq
      exact hy₀ ((Prod.ext (Fin.ext h₁) h₂ : y = x) ▸ hx₀)
    refine List.mem_map.2 ⟨(y.1.val, y.2), (List.mem_erase_of_ne hne).2 (hP y hy₀), ?_⟩
    rw [hblock, hy, hb']
  have hnodup : (List.range' nMeta (s.freeblock - nMeta)).Nodup := List.nodup_range' ..
  have hlen := (hnodup.subperm hsub).length_le
  have hpos := List.length_pos_of_mem hx
  rw [List.length_range', List.length_map, List.length_erase_of_mem hx] at hlen
  omega

section Success

variable {fbn : ℕ} {q : Pointer}

/-- The state in the middle of `iappend`, with the cached fields `din` of inode `i`: everything that
is stored is listed, and the list is not too long. -/
structure Ready (P : List (ℕ × Pointer)) (i : Ino) (s : Mkfs) (din : Dinode) : Prop where
  wf : Wf s
  owned : (s.disk.iupdate i din).Owned sb.layout
  type : din.type ≠ 0
  covered : Covered P (s.disk.iupdate i din)
  room : P.length ≤ fssize - nMeta

theorem Ready.lt (h : Ready P i s din) (hq : (i.val, q) ∈ P)
    (hq₀ : (s.disk.iupdate i din).stored (i, q) = 0) : s.freeblock < fssize :=
  lt_of_covered (d := s.disk.iupdate i din) (x := (i, q)) h.wf.ge h.wf.le rfl h.owned h.covered
    h.room hq hq₀

theorem Ready.rsect_next {t : Mkfs} (h : Ready P i s din) (ht : t.len = fssize)
    (hq : (i.val, q) ∈ P) (hq₀ : (s.disk.iupdate i din).stored (i, q) = 0) :
    ∃ c, t.rsect s.next = some c := by
  have hlt := h.lt hq hq₀
  have hnext := toNat_next hlt.le
  exact ⟨_, rsect_eq ht (hnext ▸ hlt)⟩

theorem Ready.rsect_stored {b : Word} (h : Ready P i s din)
    (hq : (s.disk.iupdate i din).stored (i, q) = b) (hb : b ≠ 0) :
    s.rsect b = some (s.disk.data b) :=
  rsect_eq_data h.wf.len (taken_of_stored h.owned hq hb).1

theorem Ready.takeIndirect (h : Ready P i s din) (hlast : (i.val, .last) ∈ P) :
    Ready P i (s.takeIndirect din).1 (s.takeIndirect din).2 ∧
      (s.takeIndirect din).2.indirect ≠ 0 := by
  have hind := FsDisk.indirect_eq_stored_self (d := s.disk) (i := i) h.type
  unfold Mkfs.takeIndirect
  by_cases h₀ : din.indirect = 0
  · rw [if_pos h₀]
    have hlt := h.lt hlast (hind.trans h₀)
    have hspec := (FsDisk.balloc_spec sb.layout s.disk).of_ok (balloc_disk h.wf hlt)
    have hm := (FsDisk.filled_balloc (k := Fin.last ndirect) h.owned h.type h₀ hspec).mapped h.owned
    refine ⟨⟨h.wf.take hlt, hm.grown.owned, h.type, fun x hx ↦ ?_, h.room⟩, ?_⟩
    · rw [FsDisk.stored_setAddr h.owned h.type h₀ hspec.1 hspec.2.2] at hx
      by_cases hxi : x = (i, .direct (Fin.last ndirect))
      · rw [hxi]
        exact hlast
      · rw [if_neg hxi] at hx
        exact h.covered x hx
    · dsimp only
      rw [Dinode.indirect, Dinode.setAddr_addrs, update_self]
      exact hm.ne_zero
  · rw [if_neg h₀]
    exact ⟨h, h₀⟩

theorem Ready.mapBlock (h : Ready P i s din) (hq : Pointer.ofBlock fbn = some q)
    (hP : (i.val, q) ∈ P) (hlast : ndirect ≤ fbn → (i.val, .last) ∈ P) :
    ∃ r c, s.mapBlock din fbn = some r ∧ r.1.rsect r.2.2 = some c := by
  unfold Pointer.ofBlock at hq
  unfold Mkfs.mapBlock
  by_cases hdir : fbn < ndirect
  · rw [dif_pos hdir] at hq ⊢
    obtain rfl := Option.some.inj hq
    dsimp only
    have hst := FsDisk.stored_direct (d := s.disk) (i := i) h.type ⟨fbn, Nat.lt_succ_of_lt hdir⟩
    split
    · next h₀ =>
      obtain ⟨c, hc⟩ := h.rsect_next (t := s.take) h.wf.len hP (hst.trans h₀)
      exact ⟨_, c, rfl, hc⟩
    · next h₀ => exact ⟨_, _, rfl, h.rsect_stored hst h₀⟩
  · rw [dif_neg hdir] at hq ⊢
    by_cases hind : fbn - ndirect < nindirect
    · rw [dif_pos hind] at hq ⊢
      obtain rfl := Option.some.inj hq
      dsimp only
      obtain ⟨hr, hne⟩ := h.takeIndirect (hlast (not_lt.1 hdir))
      have hself :=
        FsDisk.indirect_eq_stored_self (d := (s.takeIndirect din).1.disk) (i := i) hr.type
      obtain ⟨hin, -⟩ := taken_of_stored hr.owned hself hne
      have hst := FsDisk.stored_indirect (d := (s.takeIndirect din).1.disk) (i := i) hr.type hne
        ⟨fbn - ndirect, hind⟩
      rw [takeEntry, hr.rsect_stored hself hne]
      dsimp only [bind, Option.bind]
      split
      · next h₀ =>
        have hsec := sector_of_le (inData_iff.1 hin).2.le
        have hlen : ((s.takeIndirect din).1.take.wsect (s.takeIndirect din).2.indirect
            (update ((s.takeIndirect din).1.disk.data (s.takeIndirect din).2.indirect)
              ⟨fbn - ndirect, hind⟩ (s.takeIndirect din).1.next)).len = fssize :=
          len_wsect (s := (s.takeIndirect din).1.take) hr.wf.len
            (hsec ▸ (inData_iff.1 hin).2) _
        obtain ⟨c, hc⟩ := hr.rsect_next hlen hP (hst.trans h₀)
        exact ⟨_, c, rfl, hc⟩
      · next h₀ => exact ⟨_, _, rfl, hr.rsect_stored hst h₀⟩
    · rw [dif_neg hind] at hq
      exact absurd hq.symm (Option.some_ne_none q)

theorem appendLoop_isSome (fuel : ℕ) : ∀ {s : Mkfs} {din : Dinode} (off n : ℕ)
    (p : ℕ → BitVec 8), Ready P i s din → off + n ≤ maxFile * bSize →
    (∀ q, Pointer.Needed (off + n) q → (i.val, q) ∈ P) →
    ∃ r, appendLoop fuel s din off n p = some r := by
  induction fuel with
  | zero => exact fun _ _ _ _ _ _ ↦ ⟨_, rfl⟩
  | succ fuel ih =>
    intro s din off n p h hfits hP
    rw [appendLoop]
    by_cases hn : n = 0
    · exact ⟨_, if_pos hn⟩
    · rw [if_neg hn]
      have hfbn : off / bSize < maxFile ∧ off / bSize * bSize < off + n := by
        simp only [bSize] at hfits ⊢
        omega
      obtain ⟨q, hq⟩ := Pointer.ofBlock_isSome hfbn.1
      have hqP := hP q (.inl ⟨_, hfbn.2, hq⟩)
      have hlast : ndirect ≤ off / bSize → (i.val, .last) ∈ P := fun hle ↦
        hP _ (.inr ⟨rfl, (Nat.mul_le_mul_right _ hle).trans_lt hfbn.2⟩)
      obtain ⟨r₁, buf, hmap, hbuf⟩ := h.mapBlock hq hqP hlast
      obtain ⟨hbmap, hwf⟩ := mapBlock_disk h.wf h.owned h.type hmap hbuf
      obtain ⟨q', hq', hm, hs⟩ := (FsDisk.bmap_spec h.owned h.type _).of_ok hbmap
      obtain ⟨hin, hlt⟩ := taken_of_stored hm.grown.owned hm.addr hm.ne_zero
      obtain ⟨hchunk, hoff⟩ := round_eq off n
      have hw := FsDisk.Grown.write hm.grown.owned (Pointer.ofBlock_ne_last hq') hm.addr hm.ne_zero
        (buf.store (off % bSize) (FsDisk.chunk off n) p)
      have hst := FsDisk.stored_write_data hm.grown.owned (Pointer.ofBlock_ne_last hq') hm.addr
        hm.ne_zero (buf.store (off % bSize) (FsDisk.chunk off n) p)
      have hle : FsDisk.chunk off n ≤ n := Nat.min_le_left _ _
      have hsum : off + FsDisk.chunk off n + (n - FsDisk.chunk off n) = off + n := by omega
      have hready : Ready P i
          (r₁.1.wsect r₁.2.2 (buf.store (off % bSize) (FsDisk.chunk off n) p)) r₁.2.1 := by
        refine ⟨hwf.wsect hin hlt _, ?_, hm.grown.type ▸ h.type, fun x hx ↦ ?_, h.room⟩
        · rw [disk_wsect hin]
          exact hw.owned
        · rw [disk_wsect hin, hst] at hx
          rcases hs.only x hx with hx | ⟨q'', hq'', hcase⟩
          · exact h.covered x hx
          · obtain rfl : q = q'' := Option.some.inj (hq.symm.trans hq'')
            rcases hcase with rfl | ⟨rfl, hle⟩
            · exact hqP
            · exact hlast hle
      obtain ⟨r, hr⟩ := ih (off + FsDisk.chunk off n) (n - FsDisk.chunk off n)
        (fun t ↦ p (FsDisk.chunk off n + t)) hready (hsum ▸ hfits) (hsum ▸ hP)
      refine ⟨r, ?_⟩
      dsimp only [bind, Option.bind]
      rw [hmap]
      dsimp only
      rw [hbuf, hchunk, hoff]
      exact hr

theorem Holds.iappend_isSome (h : Holds s V) (hi : V i = some e)
    (hfits : e.bytes.length + xp.length ≤ maxFile * bSize) (hP : Covered P s.disk)
    (hneed : ∀ q, Pointer.Needed (e.bytes.length + xp.length) q → (i.val, q) ∈ P)
    (hroom : P.length ≤ fssize - nMeta) : ∃ s', s.iappend (i + 1) xp = some s' := by
  have hold := h.holding i e hi
  have hself : s.disk.iupdate i (s.disk.dinode i) = s.disk := FsDisk.iupdate_self
  have hready : Ready P i s (s.disk.dinode i) :=
    ⟨h.wf, hself.symm ▸ h.owned, hold.type_ne, hself.symm ▸ hP, hroom⟩
  obtain ⟨r, hr⟩ := appendLoop_isSome xp.length e.bytes.length xp.length
    (fun t ↦ xp.getD t 0) hready hfits hneed
  obtain ⟨-, hwf⟩ := appendLoop_disk _ _ _ _ h.wf hready.owned hold.type_ne hr
  obtain ⟨s', hs', -⟩ := winode_eq hwf i
    { r.2 with size := BitVec.ofNat 32 (e.bytes.length + xp.length) }
  refine ⟨s', ?_⟩
  rw [Mkfs.iappend, rinode_eq h.wf.len]
  dsimp only [bind, Option.bind]
  rw [hold.size, hr]
  exact hs'

end Success

end Mkfs

end OperatingSystems
