import OperatingSystems.Fs.Owned

/-!
# The bytes of an inode

Byte `x` of an inode is byte `x % BSIZE` of the block that is stored for `x / BSIZE`. `readi`
returns these bytes, and `writei` changes those it is given and no others, of this inode or of any
other one: two places never hold the same block, a fresh block was in no place, and the indirect
block holds no bytes of a file.

The same argument says which places a write fills: those of the blocks it touches and, from block
`NDIRECT` on, the one of the indirect block.
-/

namespace OperatingSystems

/-! ## Bytes of a block -/

theorem extractLsb'_bytes (c : ℕ → BitVec 8) {t : ℕ} (ht : t < 4) :
    (c 3 ++ c 2 ++ c 1 ++ c 0).extractLsb' (8 * t) 8 = c t := by
  apply BitVec.eq_of_getLsbD_eq
  intro k hk
  have hcases : t = 0 ∨ t = 1 ∨ t = 2 ∨ t = 3 := by omega
  rcases hcases with rfl | rfl | rfl | rfl
  all_goals
    simp only [BitVec.getLsbD_extractLsb', BitVec.getLsbD_append, hk, decide_true, Bool.true_and]
  · rw [if_pos (by omega)]
    congr 1
    omega
  · rw [if_neg (by omega), if_pos (by omega)]
    congr 1
    omega
  · rw [if_neg (by omega), if_neg (by omega), if_pos (by omega)]
    congr 1
    omega
  · rw [if_neg (by omega), if_neg (by omega), if_neg (by omega)]
    congr 1
    omega

variable {x bn : ℕ}

theorem Block.byte_store (b : Block) (o m : ℕ) (src : ℕ → BitVec 8) (hx : x < bSize) :
    (b.store o m src).byte x = if o ≤ x ∧ x < o + m then src (x - o) else b.byte x := by
  have hw : x / 4 < bSize / 4 := by
    simp only [bSize] at hx ⊢
    omega
  have hget := extractLsb'_bytes (fun t ↦ if o ≤ 4 * (x / 4) + t ∧ 4 * (x / 4) + t < o + m then
    src (4 * (x / 4) + t - o) else b.byte (4 * (x / 4) + t)) (Nat.mod_lt x (by decide : 0 < 4))
  rw [Nat.div_add_mod x 4] at hget
  rw [byte, word, dif_pos hw]
  exact hget

/-! ## Places -/

theorem Pointer.ofBlock_inj {bn' : ℕ} {q : Pointer} (h : ofBlock bn = some q)
    (h' : ofBlock bn' = some q) : bn = bn' := by
  unfold ofBlock at h h'
  split at h <;> split at h'
  · rw [← h'] at h
    have := congrArg Fin.val (Pointer.direct.inj (Option.some.inj h))
    exact this
  · split at h'
    · rw [← h'] at h
      cases h
    · cases h'
  · split at h
    · rw [← h'] at h
      cases h
    · cases h
  · split at h
    · split at h'
      · rw [← h'] at h
        have := congrArg Fin.val (Pointer.indirect.inj (Option.some.inj h))
        dsimp only at this
        omega
      · cases h'
    · cases h

namespace FsDisk

variable {n : ℕ} {L : Layout} {d d' : FsDisk n} {i j : Fin n} {ip ip' : Dinode} {b : BlockNo}

def byteAt (d : FsDisk n) (i : Fin n) (x : ℕ) : BitVec 8 :=
  (d.data (d.blockAt i (x / bSize))).byte (x % bSize)

theorem exists_of_blockAt_ne_zero (h : d.blockAt i bn ≠ 0) :
    ∃ q, Pointer.ofBlock bn = some q ∧ d.stored (i, q) ≠ 0 ∧ d.blockAt i bn = d.stored (i, q) := by
  cases hq : Pointer.ofBlock bn with
  | none =>
    rw [blockAt, hq] at h
    exact absurd rfl h
  | some q =>
    have hat := blockAt_of_ofBlock (d := d) (i := i) hq
    exact ⟨q, rfl, hat ▸ h, hat⟩

theorem bmap_of_blockAt (hi : ip.type ≠ 0) (h : (d.iupdate i ip).blockAt i bn ≠ 0) :
    d.bmap L ip bn = .ok (d, ip, (d.iupdate i ip).blockAt i bn) := by
  obtain ⟨q, hq, hne, hat⟩ := exists_of_blockAt_ne_zero h
  rw [hat]
  unfold Pointer.ofBlock at hq
  unfold bmap
  split at hq
  · next hbn =>
    cases hq
    rw [stored_direct hi] at hne
    rw [dif_pos hbn]
    dsimp only
    rw [if_neg hne, stored_direct hi]
  · next hbn =>
    split at hq
    · next hbn' =>
      cases hq
      have h₀ : ip.indirect ≠ 0 := by
        intro h₀
        rw [stored_iupdate_self, Dinode.pointer, if_pos (.inr h₀)] at hne
        exact hne rfl
      rw [stored_indirect hi h₀] at hne
      rw [dif_neg hbn, dif_pos hbn', loadIndirect, if_neg h₀]
      have hentry : d.indirectEntry L ip ⟨bn - ndirect, hbn'⟩ =
          .ok (d, ip, d.data ip.indirect ⟨bn - ndirect, hbn'⟩) := if_neg hne
      rw [stored_indirect hi h₀]
      exact hentry
    · cases hq

/-! ## Reading -/

def bytes (d : FsDisk n) (i : Fin n) (off len : ℕ) : List (BitVec 8) :=
  (List.range len).map fun t ↦ d.byteAt i (off + t)

theorem bytes_add (off m len : ℕ) :
    d.bytes i off (m + len) = d.bytes i off m ++ d.bytes i (off + m) len := by
  rw [bytes, List.range_add, List.map_append, List.map_map]
  refine congrArg _ (List.map_congr_left fun t _ ↦ ?_)
  rw [Function.comp_apply, Nat.add_assoc]

theorem readLoop_eq (fuel : ℕ) (hi : ip.type ≠ 0) : ∀ off len : ℕ, len ≤ fuel →
    (∀ bn, Touches off len bn → (d.iupdate i ip).blockAt i bn ≠ 0) →
    readLoop L fuel d ip off len = .ok (d, ip, (d.iupdate i ip).bytes i off len) := by
  induction fuel with
  | zero =>
    intro off len hlen _
    obtain rfl : len = 0 := by omega
    rfl
  | succ fuel ih =>
    intro off len hlen hm
    rw [readLoop]
    by_cases h₀ : len = 0
    · subst h₀
      rfl
    · rw [if_neg h₀, bmap_of_blockAt hi (hm _ ((touches_iff h₀).2 (.inl rfl)))]
      have hpos := chunk_pos off h₀
      have hle : chunk off len ≤ len := Nat.min_le_left _ _
      have hrest := ih (off + chunk off len) (len - chunk off len) (by omega)
        fun bn hbn ↦ hm bn ((touches_iff h₀).2 (.inr hbn))
      -- the first round takes its bytes from one block
      have hfirst : (d.data ((d.iupdate i ip).blockAt i (off / bSize))).load (off % bSize)
          (chunk off len) = (d.iupdate i ip).bytes i off (chunk off len) := by
        refine List.map_congr_left fun t ht ↦ ?_
        have ht := List.mem_range.1 ht
        have hdiv : (off + t) / bSize = off / bSize ∧ (off + t) % bSize = off % bSize + t := by
          simp only [chunk, bSize] at ht ⊢
          omega
        rw [byteAt, hdiv.1, hdiv.2]
        rfl
      have hsplit : (d.iupdate i ip).bytes i off len = _ :=
        (congrArg ((d.iupdate i ip).bytes i off) (Nat.add_sub_cancel' hle)).symm.trans
          (bytes_add off (chunk off len) (len - chunk off len))
      rw [hsplit, ← hfirst]
      dsimp only [bind, Except.bind]
      rw [hrest]

theorem readi_eq {off len : Word} (hi : (d.dinode i).type ≠ 0) (hdev : (d.dinode i).type ≠ tDev)
    (hle : off.toNat + len.toNat ≤ (d.dinode i).size.toNat)
    (hm : ∀ bn, Touches off.toNat len.toNat bn → d.blockAt i bn ≠ 0) :
    d.readi L (d.dinode i) off len =
      .ok (d, d.dinode i, some (d.bytes i off.toNat len.toNat)) := by
  have hsize := (d.dinode i).size.isLt
  have hadd : (off + len).toNat = off.toNat + len.toNat := by
    rw [BitVec.toNat_add]
    exact Nat.mod_eq_of_lt (by omega)
  have hno : ¬ ((d.dinode i).size < off ∨ off + len < off) := by
    rw [BitVec.lt_def, BitVec.lt_def, hadd]
    omega
  have hlen : ¬ (d.dinode i).size < off + len := by
    rw [BitVec.lt_def, hadd]
    omega
  have hloop := readLoop_eq (L := L) (d := d) (i := i) len.toNat hi off.toNat len.toNat le_rfl
    (by rwa [iupdate_self])
  rw [iupdate_self] at hloop
  rw [readi, if_neg hdev, if_neg hno]
  dsimp only
  rw [if_neg hlen, hloop]
  rfl

/-! ## Writing -/

/-- What a write of the bytes `src` at `off` does to the places and to the bytes of the inodes. -/
structure Stores (i : Fin n) (d : FsDisk n) (ip : Dinode) (off len : ℕ) (src : ℕ → BitVec 8)
    (r : FsDisk n × Dinode) : Prop where
  only : ∀ x, (r.1.iupdate i r.2).stored x ≠ 0 → (d.iupdate i ip).stored x ≠ 0 ∨
    ∃ bn q, Touches off len bn ∧ Pointer.ofBlock bn = some q ∧
      (x = (i, q) ∨ x = (i, .last) ∧ ndirect ≤ bn)
  kept : ∀ j x, (d.iupdate i ip).blockAt j (x / bSize) ≠ 0 → ¬(j = i ∧ off ≤ x ∧ x < off + len) →
    (r.1.iupdate i r.2).byteAt j x = (d.iupdate i ip).byteAt j x
  written : ∀ x, off ≤ x → x < off + len → (r.1.iupdate i r.2).byteAt i x = src (x - off)

theorem Spares.byteAt (hg : Grown L i d ip d' ip') (h : Spares i d ip bn d' ip')
    (hx : (d.iupdate i ip).blockAt j (x / bSize) ≠ 0) :
    (d'.iupdate i ip').byteAt j x = (d.iupdate i ip).byteAt j x := by
  obtain ⟨q, hq, hne, hat⟩ := exists_of_blockAt_ne_zero hx
  rw [FsDisk.byteAt, FsDisk.byteAt, hg.blockAt j _ hx, hat, iupdate_data, iupdate_data,
    h.data (j, q) (Pointer.ofBlock_ne_last hq) hne]

theorem byteAt_store {q : Pointer} {off len : ℕ} {src : ℕ → BitVec 8}
    (h : (d.iupdate i ip).Owned L) (hq : Pointer.ofBlock (off / bSize) = some q)
    (hb : (d.iupdate i ip).stored (i, q) = b) (hb₀ : b ≠ 0)
    (hx : (d.iupdate i ip).blockAt j (x / bSize) ≠ 0) :
    ((d.write b ((d.data b).store (off % bSize) (chunk off len) src)).iupdate i ip).byteAt j x =
      if j = i ∧ off ≤ x ∧ x < off + chunk off len then src (x - off)
      else (d.iupdate i ip).byteAt j x := by
  have hmod : x % bSize < bSize := Nat.mod_lt x (by decide)
  have hw := Grown.write h (Pointer.ofBlock_ne_last hq) hb hb₀
    ((d.data b).store (off % bSize) (chunk off len) src)
  obtain ⟨q', hq', hne, hat⟩ := exists_of_blockAt_ne_zero hx
  rw [byteAt, byteAt, hw.blockAt j _ hx, hat, iupdate_data, iupdate_data, write_data]
  by_cases hplace : (j, q') = (i, q)
  · -- the block that is written to
    obtain ⟨rfl, rfl⟩ := Prod.mk.inj hplace
    have hblock : x / bSize = off / bSize := Pointer.ofBlock_inj hq' hq
    rw [hb, Function.update_self, Block.byte_store _ _ _ _ hmod]
    have hiff : (off % bSize ≤ x % bSize ∧ x % bSize < off % bSize + chunk off len) ↔
        off ≤ x ∧ x < off + chunk off len := by
      simp only [bSize] at hblock ⊢
      omega
    by_cases hin : off ≤ x ∧ x < off + chunk off len
    · rw [if_pos (hiff.2 hin), if_pos ⟨rfl, hin⟩]
      congr 1
      simp only [bSize] at hblock ⊢
      omega
    · rw [if_neg fun h ↦ hin (hiff.1 h), if_neg fun h ↦ hin h.2]
  · -- another block
    rw [Function.update_of_ne, if_neg]
    · rintro ⟨rfl, hin⟩
      have hblock : x / bSize = off / bSize := by
        simp only [chunk, bSize] at hin ⊢
        omega
      rw [hblock, hq] at hq'
      exact hplace (by rw [Option.some.inj hq'])
    · rw [← hb]
      intro heq
      exact hplace (h.owns.inj _ _ hne heq)

theorem writeLoop_stores (fuel : ℕ) : ∀ {d : FsDisk n} {ip : Dinode} (off len : ℕ)
    (src : ℕ → BitVec 8), (d.iupdate i ip).Owned L → ip.type ≠ 0 → len ≤ fuel →
    Outcome (Stores i d ip off len src) (· ≠ .freeingFreeBlock)
      (writeLoop L fuel d ip off len src) := by
  have hnone : ∀ {d : FsDisk n} {ip : Dinode} {off : ℕ} {src : ℕ → BitVec 8},
      Stores i d ip off 0 src (d, ip) := fun {d ip off src} ↦
    ⟨fun x hx ↦ .inl hx, fun j x _ _ ↦ rfl, fun x h₁ h₂ ↦ absurd h₂ (by omega)⟩
  induction fuel with
  | zero =>
    intro d ip off len src h hi hlen
    obtain rfl : len = 0 := by omega
    exact .ok hnone
  | succ fuel ih =>
    intro d ip off len src h hi hlen
    rw [writeLoop]
    by_cases h₀ : len = 0
    · subst h₀
      exact .ok hnone
    rw [if_neg h₀]
    refine (bmap_spec h hi _).bind fun r hr ↦ ?_
    obtain ⟨q, hq, hm, hs⟩ := hr
    have hpos := chunk_pos off h₀
    have hle : chunk off len ≤ len := Nat.min_le_left _ _
    have hw := Grown.write hm.grown.owned (Pointer.ofBlock_ne_last hq) hm.addr hm.ne_zero
      ((r.1.data r.2.2).store (off % bSize) (chunk off len) src)
    have hg := hm.grown.trans hw
    have hfirst : (r.1.iupdate i r.2.1).blockAt i (off / bSize) ≠ 0 := by
      rw [blockAt_of_ofBlock hq, hm.addr]
      exact hm.ne_zero
    refine (ih (off + chunk off len) (len - chunk off len) _ hw.owned (hg.type ▸ hi)
      (by omega)).imp fun r' hr' ↦ ⟨fun x hx ↦ ?_, fun j x hx hout ↦ ?_, fun x hle₁ hlt ↦ ?_⟩
    · rcases hr'.only x hx with hx | ⟨bn, q', hbn, hq', hcase⟩
      · have hx' : (r.1.iupdate i r.2.1).stored x ≠ 0 := by
          rwa [stored_write_data hm.grown.owned (Pointer.ofBlock_ne_last hq) hm.addr hm.ne_zero]
            at hx
        rcases hs.only x hx' with hx | ⟨q', hq', hcase⟩
        · exact .inl hx
        · exact .inr ⟨_, q', (touches_iff h₀).2 (.inl rfl), hq', hcase⟩
      · exact .inr ⟨bn, q', (touches_iff h₀).2 (.inr hbn), hq', hcase⟩
    · have hx₁ := hm.grown.blockAt j _ hx
      have hx₂ := hg.blockAt j _ hx
      rw [hr'.kept j x (hx₂ ▸ hx) (by omega),
        byteAt_store hm.grown.owned hq hm.addr hm.ne_zero (hx₁ ▸ hx), if_neg (by omega),
        hs.byteAt hm.grown hx]
    · by_cases hin : x < off + chunk off len
      · have hblock : x / bSize = off / bSize := by
          simp only [chunk, bSize] at hin ⊢
          omega
        have hx₁ : (r.1.iupdate i r.2.1).blockAt i (x / bSize) ≠ 0 := hblock ▸ hfirst
        rw [hr'.kept i x (hw.blockAt i _ hx₁ ▸ hx₁) (by omega),
          byteAt_store hm.grown.owned hq hm.addr hm.ne_zero hx₁, if_pos ⟨rfl, hle₁, hin⟩]
      · rw [hr'.written x (by omega) (by omega)]
        congr 1
        omega

end FsDisk

end OperatingSystems
