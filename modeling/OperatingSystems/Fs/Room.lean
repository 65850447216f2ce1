import Mathlib.Data.Finset.Union
import OperatingSystems.Fs.Holding

/-!
# Room for a write

A write takes a block for every place that it needs and finds empty, and no other: the places of the
blocks that its bytes go to and, from block `NDIRECT` on, the one of the indirect block. So `writei`
does not run out of blocks where there are as many free ones as such places.
-/

namespace OperatingSystems

open Function

namespace Pointer

variable {bn : ℕ} {q q' : Pointer}

/-- The places on the way to block `bn` of a content. -/
def route (bn : ℕ) : Finset Pointer :=
  (ofBlock bn).elim ∅ fun q ↦ if bn < ndirect then {q} else {q, .last}

theorem route_of_lt (hq : ofBlock bn = some q) (h : bn < ndirect) : route bn = {q} := by
  rw [route, hq, Option.elim_some, if_pos h]

theorem route_of_le (hq : ofBlock bn = some q) (h : ndirect ≤ bn) : route bn = {q, .last} := by
  rw [route, hq, Option.elim_some, if_neg (not_lt.mpr h)]

theorem mem_route (hq : ofBlock bn = some q) :
    q' ∈ route bn ↔ q' = q ∨ q' = .last ∧ ndirect ≤ bn := by
  rcases lt_or_ge bn ndirect with hlt | hle
  · rw [route_of_lt hq hlt, Finset.mem_singleton]
    exact ⟨.inl, fun h ↦ h.resolve_right fun h ↦ absurd h.2 (not_le.mpr hlt)⟩
  · rw [route_of_le hq hle, Finset.mem_insert, Finset.mem_singleton]
    exact or_congr_right ⟨fun h ↦ ⟨h, hle⟩, And.left⟩

end Pointer

namespace FsDisk

instance (off len bn : ℕ) : Decidable (Touches off len bn) := inferInstanceAs (Decidable (_ ∧ _))

/-- The places on the way to the blocks that `len` bytes from `off` on are in. -/
def wanted (off len : ℕ) : Finset Pointer :=
  ((Finset.range maxFile).filter (Touches off len)).biUnion Pointer.route

variable {n : ℕ} {L : Layout} {d d' : FsDisk n} {i : Fin n} {ip ip' : Dinode} {b : BlockNo}

/-- The places of inode `i` among these that are empty. -/
def empties (d : FsDisk n) (i : Fin n) (qs : Finset Pointer) : Finset Pointer :=
  qs.filter fun q ↦ d.stored (i, q) = 0

variable {q : Pointer} {off len bn len' : ℕ} {r : FsDisk n × Dinode × BlockNo}

theorem mem_empties {qs : Finset Pointer} :
    q ∈ d.empties i qs ↔ q ∈ qs ∧ d.stored (i, q) = 0 := Finset.mem_filter

def free (L : Layout) (d : FsDisk n) : Finset ℕ :=
  (Finset.range L.size).filter fun b ↦ d.bitmap (BitVec.ofNat 32 b) = false

/-- There are as many free blocks as a write of `len` bytes at `off` to inode `i` takes. -/
def HasRoom (L : Layout) (d : FsDisk n) (i : Fin n) (off len : ℕ) : Prop :=
  (d.empties i (wanted off len)).card ≤ (d.free L).card

instance (L : Layout) (d : FsDisk n) (i : Fin n) (off len : ℕ) :
    Decidable (HasRoom L d i off len) :=
  inferInstanceAs (Decidable (_ ≤ _))

theorem mem_wanted :
    q ∈ wanted off len ↔ ∃ bn < maxFile, Touches off len bn ∧ q ∈ Pointer.route bn := by
  simp only [wanted, Finset.mem_biUnion, Finset.mem_filter, Finset.mem_range, and_assoc]

/-! ## The block allocator -/

theorem balloc_room (L : Layout) (d : FsDisk n) :
    Outcome (fun r ↦ (r.1.free L).card + 1 = (d.free L).card) (fun _ ↦ (d.free L).card = 0)
      (d.balloc L) := by
  cases hr : d.balloc L with
  | ok r =>
    obtain ⟨hb, hlt, hd⟩ := (balloc_spec L d).of_ok hr
    have herase : r.1.free L = (d.free L).erase r.2.toNat := by
      ext b
      have hiff : b < L.size → (BitVec.ofNat 32 b = r.2 ↔ b = r.2.toNat) := fun hlt' ↦ by
        rw [← BitVec.toNat_inj, BitVec.toNat_ofNat, Nat.mod_eq_of_lt (hlt'.trans_le L.size_le)]
      simp only [free, Finset.mem_erase, Finset.mem_filter, Finset.mem_range]
      rw [hd, write_bitmap, mark_bitmap, update_apply]
      by_cases hlt' : b < L.size
      · split
        · next h => exact ⟨fun h' ↦ (Bool.false_ne_true h'.2.symm).elim,
            fun h' ↦ absurd ((hiff hlt').mp h) h'.1⟩
        · next h => exact ⟨fun h' ↦ ⟨fun heq ↦ h ((hiff hlt').mpr heq), h'⟩, And.right⟩
      · exact ⟨fun h ↦ absurd h.1 hlt', fun h ↦ absurd h.2.1 hlt'⟩
    have hmem : r.2.toNat ∈ d.free L := by
      rw [free, Finset.mem_filter, Finset.mem_range, BitVec.ofNat_toNat, BitVec.setWidth_eq]
      exact ⟨hlt, hb⟩
    refine .ok ?_
    rw [herase, Finset.card_erase_add_one hmem]
  | error e =>
    refine .error ?_
    rw [balloc] at hr
    split at hr
    · cases hr
    · next hnone =>
      rw [Finset.card_eq_zero, free, Finset.filter_eq_empty_iff]
      intro b hb hclear
      refine absurd (List.find?_eq_none.mp hnone (BitVec.ofNat 32 b) ?_) ?_
      · exact List.mem_map.mpr ⟨b, List.mem_range.mpr (Finset.mem_range.mp hb), rfl⟩
      · rw [hclear]
        decide

/-! ## Mapping a block -/

theorem Mapped.route_ne_zero {q' : Pointer} (h : Mapped L i d ip q r)
    (hq : Pointer.ofBlock bn = some q) (hq' : q' ∈ Pointer.route bn) :
    (r.1.iupdate i r.2.1).stored (i, q') ≠ 0 := by
  have hne : (r.1.iupdate i r.2.1).stored (i, q) ≠ 0 := h.addr ▸ h.ne_zero
  rcases (Pointer.mem_route hq).mp hq' with rfl | ⟨rfl, hle⟩
  · exact hne
  · obtain ⟨j, rfl⟩ := Pointer.exists_indirect_of_le hq hle
    exact stored_last_ne hne

theorem empties_singleton : (d.empties i {q}).card = if d.stored (i, q) = 0 then 1 else 0 := by
  rw [empties, Finset.filter_singleton]
  split
  · rfl
  · rfl

theorem empties_pair (hq : q ≠ .last) : (d.empties i {q, .last}).card =
    (if d.stored (i, q) = 0 then 1 else 0) + if d.stored (i, .last) = 0 then 1 else 0 := by
  rw [empties, Finset.filter_insert, Finset.filter_singleton]
  have hnot : q ∉ ({.last} : Finset Pointer) := fun h ↦ hq (Finset.mem_singleton.mp h)
  split
  · split
    · exact Finset.card_pair hq
    · rfl
  · split
    · rfl
    · rfl

theorem bmap_room (hi : ip.type ≠ 0) (hbn : bn < maxFile) :
    Outcome (fun r ↦ (r.1.free L).card + ((d.iupdate i ip).empties i (Pointer.route bn)).card
        = (d.free L).card)
      (fun _ ↦ (d.free L).card < ((d.iupdate i ip).empties i (Pointer.route bn)).card)
      (d.bmap L ip bn) := by
  unfold bmap
  by_cases hlt : bn < ndirect
  · have hq : Pointer.ofBlock bn = some (.direct ⟨bn, Nat.lt_succ_of_lt hlt⟩) := by
      rw [Pointer.ofBlock, dif_pos hlt]
    rw [dif_pos hlt, Pointer.route_of_lt hq hlt, empties_singleton, stored_direct hi]
    dsimp only
    split
    · refine ((balloc_room L d).imp_error fun e he ↦ ?_).bind fun r hr ↦ .ok hr
      omega
    · exact .ok rfl
  · have hlt' : bn - ndirect < nindirect := by
      unfold maxFile at hbn
      omega
    have hq : Pointer.ofBlock bn = some (.indirect ⟨bn - ndirect, hlt'⟩) := by
      rw [Pointer.ofBlock, dif_neg hlt, dif_pos hlt']
    have hcard := empties_pair (d := d.iupdate i ip) (i := i) (Pointer.ofBlock_ne_last hq)
    rw [dif_neg hlt, dif_pos hlt', Pointer.route_of_le hq (not_lt.mp hlt), hcard,
      indirect_eq_stored_self hi]
    by_cases h₀ : ip.indirect = 0
    · -- both places are empty
      have hentry : (d.iupdate i ip).stored (i, .indirect ⟨bn - ndirect, hlt'⟩) = 0 := by
        rw [stored_iupdate_self, Dinode.pointer, if_pos (.inr h₀)]
      rw [if_pos hentry, if_pos h₀, loadIndirect, if_pos h₀]
      have hload : Outcome (fun r ↦ (r.1.free L).card + 1 = (d.free L).card ∧
          r.1.data r.2.indirect = fun _ ↦ 0) (fun _ ↦ (d.free L).card < 1 + 1)
          (d.balloc L >>= fun r ↦ .ok (r.1, ip.setAddr (Fin.last ndirect) r.2)) := by
        refine ((balloc_room L d).strengthen (balloc_spec L d)).imp_error (fun e he ↦ ?_) |>.bind
          fun r hr ↦ .ok ⟨hr.2, ?_⟩
        · omega
        · rw [Dinode.indirect, Dinode.setAddr_addrs, update_self, hr.1.2.2, write_data,
            update_self]
      refine hload.bind fun r hr ↦ ?_
      rw [indirectEntry, if_pos (congrFun hr.2 _)]
      refine ((balloc_room L r.1).imp_error fun e he ↦ ?_).bind fun r' hr' ↦ .ok ?_
      · omega
      · have hfree : (r'.1.free L).card + 1 = (r.1.free L).card := hr'
        change (r'.1.free L).card + (1 + 1) = (d.free L).card
        omega
    · rw [if_neg h₀, loadIndirect, if_neg h₀, ok_bind, indirectEntry, stored_indirect hi h₀]
      split
      · refine ((balloc_room L d).imp_error fun e he ↦ ?_).bind fun r hr ↦ .ok hr
        omega
      · exact .ok rfl

/-! ## The loop of `writei` -/

theorem wanted_eq (hlen : len ≠ 0) (hle : off + len ≤ maxFile * bSize) : wanted off len =
      Pointer.route (off / bSize) ∪ wanted (off + chunk off len) (len - chunk off len) := by
  have hfirst : off / bSize < maxFile := by
    rw [Nat.div_lt_iff_lt_mul (by decide)]
    omega
  ext q
  simp only [Finset.mem_union, mem_wanted]
  constructor
  · rintro ⟨bn, hbn, ht, hq⟩
    rcases (touches_iff hlen).mp ht with rfl | ht
    · exact .inl hq
    · exact .inr ⟨bn, hbn, ht, hq⟩
  · rintro (hq | ⟨bn, hbn, ht, hq⟩)
    · exact ⟨_, hfirst, (touches_iff hlen).mpr (.inl rfl), hq⟩
    · exact ⟨bn, hbn, (touches_iff hlen).mpr (.inr ht), hq⟩

theorem card_empties_le {c : Block} (hlen : len ≠ 0) (hle : off + len ≤ maxFile * bSize)
    (hm : Mapped L i d ip q r) (hq : Pointer.ofBlock (off / bSize) = some q) :
    (((r.1.write r.2.2 c).iupdate i r.2.1).empties i
        (wanted (off + chunk off len) (len - chunk off len))).card +
      ((d.iupdate i ip).empties i (Pointer.route (off / bSize))).card ≤
    ((d.iupdate i ip).empties i (wanted off len)).card := by
  have hst := stored_write_data hm.grown.owned (Pointer.ofBlock_ne_last hq) hm.addr hm.ne_zero c
  rw [← Finset.card_union_of_disjoint]
  · refine Finset.card_le_card fun q' hq' ↦ ?_
    rw [wanted_eq hlen hle, mem_empties, Finset.mem_union]
    rcases Finset.mem_union.mp hq' with hq' | hq'
    · obtain ⟨hmem, hzero⟩ := mem_empties.mp hq'
      refine ⟨.inr hmem, ?_⟩
      by_contra hne
      rw [hst, hm.grown.keeps _ hne] at hzero
      exact hne hzero
    · obtain ⟨hmem, hzero⟩ := mem_empties.mp hq'
      exact ⟨.inl hmem, hzero⟩
  · refine Finset.disjoint_left.mpr fun q' hq' hroute ↦ ?_
    have hzero := (mem_empties.mp hq').2
    rw [hst] at hzero
    exact hm.route_ne_zero hq (mem_empties.mp hroute).1 hzero

theorem writeLoop_room (fuel : ℕ) : ∀ {d : FsDisk n} {ip : Dinode} (off len : ℕ)
    (src : ℕ → BitVec 8), (d.iupdate i ip).Owned L → ip.type ≠ 0 → off + len ≤ maxFile * bSize →
    Outcome (fun r ↦ (d.free L).card ≤
        (r.1.free L).card + ((d.iupdate i ip).empties i (wanted off len)).card)
      (fun _ ↦ (d.free L).card < ((d.iupdate i ip).empties i (wanted off len)).card)
      (writeLoop L fuel d ip off len src) := by
  induction fuel with
  | zero => exact fun _ _ _ _ _ _ ↦ .ok (Nat.le_add_right _ _)
  | succ fuel ih =>
    intro d ip off len src h hi hle
    rw [writeLoop]
    by_cases hlen : len = 0
    · rw [if_pos hlen]
      exact .ok (Nat.le_add_right _ _)
    rw [if_neg hlen]
    have hfirst : off / bSize < maxFile := by
      rw [Nat.div_lt_iff_lt_mul (by decide)]
      omega
    have hroute : Pointer.route (off / bSize) ⊆ wanted off len := by
      rw [wanted_eq hlen hle]
      exact Finset.subset_union_left
    have hsub := Finset.card_le_card (Finset.filter_subset_filter
      (fun q ↦ (d.iupdate i ip).stored (i, q) = 0) hroute)
    refine (((bmap_room hi hfirst).strengthen (bmap_spec h hi _)).imp_error fun e he ↦
      he.trans_le hsub).bind fun r hr ↦ ?_
    obtain ⟨⟨q, hq, hm, -⟩, hfree⟩ := hr
    have hw := Grown.write hm.grown.owned (Pointer.ofBlock_ne_last hq) hm.addr hm.ne_zero
      ((r.1.data r.2.2).store (off % bSize) (chunk off len) src)
    have hchunk : chunk off len ≤ len := Nat.min_le_left _ _
    refine ((ih (off + chunk off len) (len - chunk off len) _ hw.owned (hm.grown.type ▸ hi)
      (by omega)).imp fun r' hr' ↦ ?_).imp_error fun e he ↦ ?_
    · calc (d.free L).card = (r.1.free L).card + _ := hfree.symm
        _ ≤ (r'.1.free L).card + _ + _ := Nat.add_le_add_right hr' _
        _ ≤ _ := by
          rw [Nat.add_assoc]
          exact Nat.add_le_add_left (card_empties_le hlen hle hm hq) _
    · calc (d.free L).card = (r.1.free L).card + _ := hfree.symm
        _ < _ := Nat.add_lt_add_right he _
        _ ≤ _ := card_empties_le hlen hle hm hq

theorem wanted_mono (h : len ≤ len') : wanted off len ⊆ wanted off len' := by
  intro q hq
  obtain ⟨bn, hbn, ht, hq⟩ := mem_wanted.mp hq
  exact mem_wanted.mpr ⟨bn, hbn, ⟨ht.1, ht.2.1.trans_le (by omega), ht.2.2.trans_le h⟩, hq⟩

theorem wanted_add_subset (off len len' : ℕ) :
    wanted (off + len) len' ⊆ wanted off (len + len') := by
  intro q hq
  obtain ⟨bn, hbn, ⟨hlo, hhi, hpos⟩, hq⟩ := mem_wanted.mp hq
  refine mem_wanted.mpr ⟨bn, hbn, ⟨?_, by omega, by omega⟩, hq⟩
  exact (Nat.div_le_div_right (Nat.le_add_right off len)).trans hlo

theorem HasRoom.mono (h : d.HasRoom L i off len') (hle : len ≤ len') : d.HasRoom L i off len :=
  (Finset.card_le_card (Finset.filter_subset_filter _ (wanted_mono hle))).trans h

theorem HasRoom.rest (h : d.HasRoom L i off (len + len'))
    (hkeeps : ∀ x, d.stored x ≠ 0 → d'.stored x = d.stored x)
    (hfilled : ∀ q ∈ wanted off len, d'.stored (i, q) ≠ 0)
    (hfree : (d.free L).card ≤ (d'.free L).card + (d.empties i (wanted off len)).card) :
    d'.HasRoom L i (off + len) len' := by
  have hcard : (d'.empties i (wanted (off + len) len')).card + (d.empties i (wanted off len)).card
      ≤ (d.empties i (wanted off (len + len'))).card := by
    rw [← Finset.card_union_of_disjoint]
    · refine Finset.card_le_card fun q hq ↦ ?_
      rcases Finset.mem_union.mp hq with hq | hq
      · obtain ⟨hmem, hzero⟩ := mem_empties.mp hq
        refine mem_empties.mpr ⟨wanted_add_subset off len len' hmem, ?_⟩
        by_contra hne
        rw [hkeeps _ hne] at hzero
        exact hne hzero
      · obtain ⟨hmem, hzero⟩ := mem_empties.mp hq
        exact mem_empties.mpr ⟨wanted_mono (Nat.le_add_right len len') hmem, hzero⟩
    · refine Finset.disjoint_left.mpr fun q hq hq' ↦ ?_
      exact hfilled q (mem_empties.mp hq').1 (mem_empties.mp hq).2
  have h : (d.empties i (wanted off (len + len'))).card ≤ (d.free L).card := h
  change (d'.empties i (wanted (off + len) len')).card ≤ (d'.free L).card
  omega

theorem Wrote.filled {r : FsDisk n × Dinode} (h : Wrote L i d ip off len r)
    (hq : q ∈ wanted off len) : (r.1.iupdate i r.2).stored (i, q) ≠ 0 := by
  obtain ⟨bn, -, ht, hq⟩ := mem_wanted.mp hq
  have hne := h.mapped bn ht
  obtain ⟨q', hq', -⟩ := exists_of_blockAt_ne_zero hne
  rw [blockAt_of_ofBlock hq'] at hne
  rcases (Pointer.mem_route hq').mp hq with rfl | ⟨rfl, hle⟩
  · exact hne
  · obtain ⟨j, rfl⟩ := Pointer.exists_indirect_of_le hq' hle
    exact stored_last_ne hne

end FsDisk

end OperatingSystems
