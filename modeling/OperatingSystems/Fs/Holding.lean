import OperatingSystems.Fs.Contents

/-!
# Inodes without holes

An inode that was written from its start on, one piece behind the other, has a block number in
exactly the places that its size needs: one for each of its blocks, and one for the indirect block
as soon as the direct ones are not enough. `Holding` says this together with what the bytes are, and
`Holding.append` that a write at the end of the content keeps it up. It says what happens to the
other inodes as well: nothing.
-/

namespace OperatingSystems

open Function

namespace Pointer

variable {q : Pointer} {z off len bn : ℕ}

/-- The places that a content of `z` bytes needs. -/
def Needed (z : ℕ) (q : Pointer) : Prop :=
  (∃ bn, bn * bSize < z ∧ ofBlock bn = some q) ∨ q = .last ∧ ndirect * bSize < z

theorem not_needed_zero (q : Pointer) : ¬Needed 0 q := by
  rintro (⟨bn, hbn, _⟩ | ⟨_, h⟩)
  · exact Nat.not_lt_zero _ hbn
  · exact Nat.not_lt_zero _ h

theorem Needed.mono {z' : ℕ} (h : Needed z q) (hz : z ≤ z') : Needed z' q := by
  rcases h with ⟨bn, hbn, hq⟩ | ⟨hq, h⟩
  · exact .inl ⟨bn, hbn.trans_le hz, hq⟩
  · exact .inr ⟨hq, h.trans_le hz⟩

theorem ofBlock_isSome (h : bn < maxFile) : ∃ q, ofBlock bn = some q := by
  unfold ofBlock
  by_cases h₁ : bn < ndirect
  · exact ⟨_, dif_pos h₁⟩
  · have h₂ : bn - ndirect < nindirect := by
      unfold maxFile at h
      omega
    rw [dif_neg h₁, dif_pos h₂]
    exact ⟨_, rfl⟩

theorem lt_of_ofBlock (h : ofBlock bn = some q) : bn < maxFile := by
  unfold ofBlock at h
  unfold maxFile
  split at h
  · omega
  · split at h
    · omega
    · exact absurd h.symm (Option.some_ne_none q)

theorem exists_indirect_of_le (h : ofBlock bn = some q) (hbn : ndirect ≤ bn) :
    ∃ j, q = .indirect j := by
  unfold ofBlock at h
  rw [dif_neg (by omega)] at h
  split at h
  · exact ⟨_, (Option.some.inj h).symm⟩
  · exact absurd h.symm (Option.some_ne_none q)

theorem needed_add : Needed (off + len) q ↔ Needed off q ∨
    ∃ bn q', FsDisk.Touches off len bn ∧ ofBlock bn = some q' ∧
      (q = q' ∨ q = .last ∧ ndirect ≤ bn) := by
  constructor
  · rintro (⟨bn, hbn, hq⟩ | ⟨hq, hlt⟩)
    · by_cases hold : bn * bSize < off
      · exact .inl (.inl ⟨bn, hold, hq⟩)
      · refine .inr ⟨bn, q, ?_, hq, .inl rfl⟩
        simp only [FsDisk.Touches, bSize] at *
        omega
    · by_cases hold : ndirect * bSize < off
      · exact .inl (.inr ⟨hq, hold⟩)
      · have hmax : ndirect < maxFile := by decide
        obtain ⟨q', hq'⟩ := ofBlock_isSome hmax
        refine .inr ⟨ndirect, q', ?_, hq', .inr ⟨hq, le_rfl⟩⟩
        simp only [FsDisk.Touches, bSize] at *
        omega
  · rintro (h | ⟨bn, q', ht, hq', rfl | ⟨rfl, hle⟩⟩)
    · exact h.mono (Nat.le_add_right _ _)
    · exact .inl ⟨bn, ht.2.1, hq'⟩
    · exact .inr ⟨rfl, (Nat.mul_le_mul_right _ hle).trans_lt ht.2.1⟩

end Pointer

structure Content where
  type : BitVec 16
  bytes : List (BitVec 8)
  allocated : type ≠ 0

def Content.append (e : Content) (xp : List (BitVec 8)) : Content :=
  { e with bytes := e.bytes ++ xp }

namespace FsDisk

variable {n off len : ℕ} {L : Layout} {d d' : FsDisk n} {i j : Fin n} {ip : Dinode} {e : Content}
  {r : FsDisk n × Dinode}

/-- Inode `i` holds `e`, in no more places than it needs. -/
structure Holding (d : FsDisk n) (i : Fin n) (e : Content) : Prop where
  type : (d.dinode i).type = e.type
  nlink : (d.dinode i).nlink = 1
  size : (d.dinode i).size.toNat = e.bytes.length
  fits : e.bytes.length ≤ maxFile * bSize
  needed : ∀ q, d.stored (i, q) ≠ 0 ↔ Pointer.Needed e.bytes.length q
  byte : ∀ x < e.bytes.length, d.byteAt i x = e.bytes.getD x 0

theorem Holding.type_ne (h : d.Holding i e) : (d.dinode i).type ≠ 0 := h.type ▸ e.allocated

theorem Holding.blockAt_ne {bn : ℕ} (h : d.Holding i e) (hbn : bn * bSize < e.bytes.length) :
    d.blockAt i bn ≠ 0 := by
  have hlt : bn < maxFile := Nat.lt_of_mul_lt_mul_right (hbn.trans_le h.fits)
  obtain ⟨q, hq⟩ := Pointer.ofBlock_isSome hlt
  rw [blockAt_of_ofBlock hq]
  exact (h.needed q).2 (.inl ⟨bn, hbn, hq⟩)

theorem Holding.blockAt_div_ne {x : ℕ} (h : d.Holding i e) (hx : x < e.bytes.length) :
    d.blockAt i (x / bSize) ≠ 0 :=
  h.blockAt_ne ((Nat.div_mul_le_self x bSize).trans_lt hx)

theorem Holding.bytes_eq (h : d.Holding i e) (hle : off + len ≤ e.bytes.length) :
    d.bytes i off len = (e.bytes.drop off).take len := by
  have hlen : ((e.bytes.drop off).take len).length = len := by
    rw [List.length_take, List.length_drop]
    omega
  refine List.ext_getElem (by rw [hlen, bytes, List.length_map, List.length_range]) ?_
  intro t ht ht'
  rw [hlen] at ht'
  have hx : off + t < e.bytes.length := by omega
  simp only [bytes, List.getElem_map, List.getElem_range, List.getElem_take, List.getElem_drop]
  rw [h.byte _ hx, List.getD_eq_getElem _ _ hx]

/-! ## Steps that leave an inode alone -/

/-- Nothing is changed about what inode `j` holds. -/
structure Leaves (j : Fin n) (d d' : FsDisk n) : Prop where
  dinode : d'.dinode j = d.dinode j
  stored : ∀ q, d'.stored (j, q) = d.stored (j, q)
  byte : ∀ x, d.blockAt j (x / bSize) ≠ 0 → d'.byteAt j x = d.byteAt j x

theorem Holding.leaves (h : d.Holding j e) (hl : Leaves j d d') : d'.Holding j e where
  type := hl.dinode ▸ h.type
  nlink := hl.dinode ▸ h.nlink
  size := hl.dinode ▸ h.size
  fits := h.fits
  needed q := by
    rw [hl.stored]
    exact h.needed q
  byte x hx := by
    rw [hl.byte x (h.blockAt_div_ne hx)]
    exact h.byte x hx

theorem Leaves.trans {d'' : FsDisk n} (h : Leaves j d d') (h' : Leaves j d' d'') :
    Leaves j d d'' := by
  refine ⟨h'.dinode.trans h.dinode, fun q ↦ (h'.stored q).trans (h.stored q), fun x hx ↦ ?_⟩
  have hat : d'.blockAt j (x / bSize) = d.blockAt j (x / bSize) := by
    obtain ⟨q, hq, _⟩ := exists_of_blockAt_ne_zero hx
    rw [blockAt_of_ofBlock hq, blockAt_of_ofBlock hq, h.stored]
  rw [h'.byte x (hat ▸ hx), h.byte x hx]

theorem Leaves.of_iupdate (hj : j ≠ i) : Leaves j d (d.iupdate i ip) := by
  have hst : ∀ q, (d.iupdate i ip).stored (j, q) = d.stored (j, q) := stored_iupdate_of_ne hj
  refine ⟨update_of_ne hj _ _, hst, fun x hx ↦ ?_⟩
  obtain ⟨q, hq, _, hat⟩ := exists_of_blockAt_ne_zero hx
  rw [byteAt, byteAt, blockAt_of_ofBlock hq, hst, ← hat, iupdate_data]

/-! ## Writing at the end -/

theorem stored_last_ne {k : Fin nindirect} (h : d.stored (i, .indirect k) ≠ 0) :
    d.stored (i, .last) ≠ 0 := by
  rw [stored, Dinode.pointer] at h
  split at h
  · exact absurd rfl h
  · next hne =>
    obtain ⟨htype, hind⟩ := not_or.mp hne
    rwa [← indirect_eq_stored htype]

theorem byteAt_iupdate_congr {ip' : Dinode} (ht : ip'.type = ip.type) (ha : ip'.addrs = ip.addrs)
    (x : ℕ) : (d.iupdate i ip').byteAt j x = (d.iupdate i ip).byteAt j x := by
  have hst : (d.iupdate i ip').blockAt j (x / bSize) = (d.iupdate i ip).blockAt j (x / bSize) := by
    rw [blockAt, blockAt, stored_iupdate_congr ht ha]
  rw [byteAt, byteAt, hst, iupdate_data, iupdate_data]

theorem leaves_of_write {src : ℕ → BitVec 8} (hw : Wrote L i d (d.dinode i) off len r)
    (hs : Stores i d (d.dinode i) off len src r) (hj : j ≠ i) : Leaves j d (r.1.iupdate i r.2) := by
  have hkeeps := hw.grown.keeps
  have honly := hs.only
  have hkept := hs.kept
  rw [iupdate_self] at hkeeps honly hkept
  refine ⟨?_, fun q ↦ ?_, fun x hx ↦ hkept j x hx fun h ↦ hj h.1⟩
  · rw [iupdate_dinode, update_of_ne hj, hw.grown.dinode]
  · by_cases hq : d.stored (j, q) = 0
    · -- an empty place of another inode is not filled
      by_contra hne
      rcases honly (j, q) (hq ▸ hne) with h | ⟨_, _, _, _, h | h⟩
      · exact h hq
      · exact hj (congrArg Prod.fst h)
      · exact hj (congrArg Prod.fst h.1)
    · exact hkeeps (j, q) hq

/-- **Appending.** A write of `xp` behind the content, followed by the update of the size. -/
theorem Holding.append {xp : List (BitVec 8)} (h : d.Holding i e)
    (hw : Wrote L i d (d.dinode i) e.bytes.length xp.length r)
    (hs : Stores i d (d.dinode i) e.bytes.length xp.length (fun t ↦ xp.getD t 0) r) :
    (r.1.iupdate i { r.2 with size := BitVec.ofNat 32 (e.bytes.length + xp.length) }).Holding i
      (e.append xp) := by
  have hkeeps := hw.grown.keeps
  have honly := hs.only
  have hkept := hs.kept
  have hfields := hw.grown.fields
  rw [iupdate_self] at hkeeps honly hkept
  have hlen : (e.append xp).bytes.length = e.bytes.length + xp.length := List.length_append
  have hst : (r.1.iupdate i { r.2 with
      size := BitVec.ofNat 32 (e.bytes.length + xp.length) }).stored =
      (r.1.iupdate i r.2).stored := stored_iupdate_congr rfl rfl
  have hbyte : ∀ x, (r.1.iupdate i { r.2 with
      size := BitVec.ofNat 32 (e.bytes.length + xp.length) }).byteAt i x =
      (r.1.iupdate i r.2).byteAt i x := byteAt_iupdate_congr rfl rfl
  -- the last block that is written to is not too far out
  have hfits : e.bytes.length + xp.length ≤ maxFile * bSize := by
    by_cases hxp : xp.length = 0
    · rw [hxp]
      exact h.fits
    · have hlast : Touches e.bytes.length xp.length
          ((e.bytes.length + xp.length - 1) / bSize) := by
        simp only [Touches, bSize]
        omega
      obtain ⟨q, hq, _⟩ := exists_of_blockAt_ne_zero (hw.mapped _ hlast)
      have hlt := Pointer.lt_of_ofBlock hq
      simp only [bSize] at hlt ⊢
      omega
  refine ⟨?_, ?_, ?_, hlen ▸ hfits, fun q ↦ ?_, fun x hx ↦ ?_⟩
  · rw [iupdate_dinode, update_self]
    exact hw.grown.type.trans h.type
  · rw [iupdate_dinode, update_self]
    exact (congrArg Dinode.nlink hfields).trans h.nlink
  · rw [iupdate_dinode, update_self, hlen]
    refine (BitVec.toNat_ofNat ..).trans (Nat.mod_eq_of_lt (hfits.trans_lt (by decide)))
  · rw [hst, hlen, Pointer.needed_add]
    constructor
    · intro hne
      rcases honly (i, q) hne with hold | ⟨bn, q', ht, hq', hcase⟩
      · exact .inl ((h.needed q).1 hold)
      · refine .inr ⟨bn, q', ht, hq', hcase.imp (congrArg Prod.snd) fun hlast ↦ ?_⟩
        exact ⟨congrArg Prod.snd hlast.1, hlast.2⟩
    · rintro (hold | ⟨bn, q', ht, hq', hcase⟩)
      · have hne := (h.needed q).2 hold
        rw [hkeeps (i, q) hne]
        exact hne
      · have hne := hw.mapped bn ht
        rw [blockAt_of_ofBlock hq'] at hne
        rcases hcase with rfl | ⟨rfl, hle⟩
        · exact hne
        · obtain ⟨k, rfl⟩ := Pointer.exists_indirect_of_le hq' hle
          exact stored_last_ne hne
  · rw [hlen] at hx
    rw [hbyte]
    by_cases hold : x < e.bytes.length
    · rw [hkept i x (h.blockAt_div_ne hold) (by omega), h.byte x hold]
      exact (List.getD_append _ _ _ _ hold).symm
    · rw [hs.written x (by omega) (by omega)]
      exact (List.getD_append_right _ _ _ _ (by omega)).symm

end FsDisk

end OperatingSystems
