import OperatingSystems.Fs.Bytes
import OperatingSystems.Fs.Room
import OperatingSystems.Fs.Writeback

/-!
# `readi` and `writei` on the array of bytes

An inode of a consistent disk whose blocks below the size are all allocated is an array of bytes.
`readi` and `writei` do to it what `FileBytes.readi` and `FileBytes.writei` say, a write touches no
other inode, and a read touches nothing at all.
-/

namespace OperatingSystems

open Function

namespace FsDisk

variable {n : ℕ} {L : Layout} {d d' : FsDisk n} {i j : Fin n} {ip ip' : Dinode} {off len : Word}
  {r : FsDisk n × Dinode} {s : List (BitVec 8)}

/-! ## The content of an inode -/

def contents (d : FsDisk n) (i : Fin n) : List (BitVec 8) := d.bytes i 0 (d.dinode i).size.toNat

theorem length_contents : (d.contents i).length = (d.dinode i).size.toNat := by
  rw [contents, bytes, List.length_map, List.length_range]

theorem getElem?_contents (x : ℕ) :
    (d.contents i)[x]? = if x < (d.dinode i).size.toNat then some (d.byteAt i x) else none := by
  rw [contents, bytes, List.getElem?_map]
  split
  · next h => rw [List.getElem?_range h, Option.map_some, Nat.zero_add]
  · next h => rw [List.getElem?_eq_none (by rw [List.length_range]; omega), Option.map_none]

theorem bytes_eq_contents {off len : ℕ} (hle : off + len ≤ (d.dinode i).size.toNat) :
    d.bytes i off len = ((d.contents i).drop off).take len := by
  refine List.ext_getElem? fun t ↦ ?_
  rw [List.getElem?_take, List.getElem?_drop, getElem?_contents, bytes, List.getElem?_map]
  split
  · next h => rw [List.getElem?_range h, Option.map_some, if_pos (by omega)]
  · next h => rw [List.getElem?_eq_none (by rw [List.length_range]; omega), Option.map_none]

theorem Dense.size_le (hd : d.Dense i) : (d.dinode i).size.toNat ≤ maxFile * bSize := by
  by_contra hlt
  obtain ⟨q, hq, -⟩ := exists_of_blockAt_ne_zero (hd maxFile (not_le.mp hlt))
  exact absurd (Pointer.lt_of_ofBlock hq) (lt_irrefl _)

theorem Dense.blockAt_div_ne (hd : d.Dense i) {x : ℕ} (hx : x < (d.dinode i).size.toNat) :
    d.blockAt i (x / bSize) ≠ 0 :=
  hd _ ((Nat.div_mul_le_self x bSize).trans_lt hx)

theorem Leaves.contents_eq (h : Leaves j d d') (hd : d.Dense j) : d'.contents j = d.contents j := by
  refine List.ext_getElem? fun x ↦ ?_
  rw [getElem?_contents, getElem?_contents, h.dinode]
  split
  · next hx => rw [h.byte x (hd.blockAt_div_ne hx)]
  · rfl

/-! ## Reading -/

theorem toNat_clamp (hle : off.toNat ≤ (d.dinode i).size.toNat)
    (hadd : (off + len).toNat = off.toNat + len.toNat) :
    (if (d.dinode i).size < off + len then (d.dinode i).size - off else len).toNat
      = min len.toNat ((d.dinode i).size.toNat - off.toNat) := by
  have hsub := BitVec.toNat_sub_of_le (BitVec.le_def.mpr hle)
  split
  · next h =>
    rw [BitVec.lt_def, hadd] at h
    omega
  · next h =>
    rw [BitVec.lt_def, hadd] at h
    omega

/-- **`readi` returns a slice of the content**, and changes nothing. -/
theorem readi_contents (hi : (d.dinode i).type ≠ 0) (hdev : (d.dinode i).type ≠ tDev)
    (hd : d.Dense i) (off len : Word) :
    d.readi L (d.dinode i) off len
      = .ok (d, d.dinode i, FileBytes.readi (d.contents i) off len) := by
  have hwrap : off + len < off ↔ 2 ^ 32 ≤ off.toNat + len.toNat := by
    rw [BitVec.lt_def, BitVec.toNat_add]
    omega
  rw [readi, if_neg hdev, FileBytes.readi, length_contents]
  by_cases hbad : (d.dinode i).size < off ∨ off + len < off
  · rw [if_pos hbad, if_pos]
    rwa [BitVec.lt_def, hwrap] at hbad
  · have hgood : ¬((d.dinode i).size.toNat < off.toNat ∨ 2 ^ 32 ≤ off.toNat + len.toNat) := by
      rwa [BitVec.lt_def, hwrap] at hbad
    rw [if_neg hbad, if_neg hgood]
    obtain ⟨hle, hnowrap⟩ := not_or.mp hbad
    have hadd := toNat_add_of_not_lt hnowrap
    rw [BitVec.not_lt, BitVec.le_def] at hle
    have hclamp := toNat_clamp hle hadd
    have hloop := readLoop_eq (L := L) (d := d) (i := i)
      (min len.toNat ((d.dinode i).size.toNat - off.toNat)) hi off.toNat _ le_rfl fun bn hbn ↦ by
        rw [iupdate_self]
        refine hd bn (hbn.2.1.trans_le ?_)
        omega
    rw [iupdate_self, bytes_eq_contents (by omega)] at hloop
    dsimp only
    rw [hclamp, hloop, ok_bind]
    refine congrArg (fun bs ↦ Except.ok (d, d.dinode i, some bs)) ?_
    rw [← List.take_take, List.take_of_length_le (l := (d.contents i).drop off.toNat)]
    rw [List.length_drop, length_contents]

/-! ## Writing -/

def writeiRet (L : Layout) (d : FsDisk n) (i : Fin n) (ip : Dinode) (off len : Word)
    (src : ℕ → BitVec 8) : Except BlockPanic (FsDisk n × Dinode × Word) := do
  let r ← d.writei L i ip off len src
  .ok (r.1, r.2, if CanWrite ip off len then len else -1)

theorem canWrite_iff (hdev : (d.dinode i).type ≠ tDev) : CanWrite (d.dinode i) off len ↔
    ¬((d.contents i).length < off.toNat ∨ 2 ^ 32 ≤ off.toNat + len.toNat ∨
      maxFile * bSize < off.toNat + len.toNat) := by
  rw [CanWrite, length_contents, BitVec.lt_def, BitVec.lt_def, BitVec.toNat_add]
  refine ⟨fun h ↦ ?_, fun h ↦ ⟨hdev, ?_, ?_⟩⟩
  all_goals omega

/-- The bytes as `writei` finds them. -/
def source (s : List (BitVec 8)) (t : ℕ) : BitVec 8 := s.getD t 0

def resized (ip : Dinode) (off len : Word) : Dinode :=
  if 0 < len ∧ ip.size < off + len then { ip with size := off + len } else ip

theorem resized_fields (ip : Dinode) (off len : Word) :
    (resized ip off len).type = ip.type ∧ (resized ip off len).addrs = ip.addrs := by
  rw [resized]
  split <;> exact ⟨rfl, rfl⟩

theorem toNat_size_resized (hle : off.toNat ≤ ip.size.toNat)
    (hadd : (off + len).toNat = off.toNat + len.toNat) :
    (resized ip off len).size.toNat = max ip.size.toNat (off.toNat + len.toNat) := by
  rw [resized]
  split
  · next h =>
    have hlt := BitVec.lt_def.mp h.2
    dsimp only
    omega
  · next h =>
    have hlen : len.toNat = 0 ∨ off.toNat + len.toNat ≤ ip.size.toNat := by
      rw [not_and_or, BitVec.lt_def, BitVec.lt_def, hadd] at h
      exact h.imp Nat.eq_zero_of_not_pos not_lt.mp
    omega

theorem writei_eq {src : ℕ → BitVec 8} (hd : d.Dense i) (hcan : CanWrite (d.dinode i) off len)
    (hloop : writeLoop L len.toNat d (d.dinode i) off.toNat len.toNat src = .ok r)
    (hr : Wrote L i d (d.dinode i) off.toNat len.toNat r) : d.writei L i (d.dinode i) off len src
      = .ok (r.1.iupdate i (resized r.2 off len), resized r.2 off len) := by
  have hadd := toNat_add_of_not_lt (not_or.mp hcan.2.1).2
  rw [writei, if_pos hcan, hloop, ok_bind, resized]
  by_cases hgrow : 0 < len ∧ r.2.size < off + len
  · rw [if_pos hgrow, if_pos hgrow]
  · rw [if_neg hgrow, if_neg hgrow, (hr.same_of_dense hd hadd hgrow).2]

/-- **`writei` replaces a part of the content**, and leaves the other inodes alone. -/
theorem writei_contents (h : d.Owned L) (hi : (d.dinode i).type ≠ 0) (hd : d.Dense i)
    (hcan : CanWrite (d.dinode i) off len) (hs : s.length = len.toNat)
    (hloop : writeLoop L len.toNat d (d.dinode i) off.toNat len.toNat (source s) = .ok r) :
    (r.1.iupdate i (resized r.2 off len)).contents i
      = FileBytes.splice (d.contents i) off.toNat s ∧
    ∀ j, j ≠ i → Leaves j d (r.1.iupdate i (resized r.2 off len)) := by
  have h' : (d.iupdate i (d.dinode i)).Owned L := by rwa [iupdate_self]
  have hw := (writeLoop_spec _ h' hi le_rfl).of_ok hloop
  have hst := (writeLoop_stores _ _ _ _ h' hi le_rfl).of_ok hloop
  have hadd := toNat_add_of_not_lt (not_or.mp hcan.2.1).2
  have hle : off.toNat ≤ (d.dinode i).size.toNat := by
    have := (not_or.mp hcan.2.1).1
    rwa [BitVec.not_lt, BitVec.le_def] at this
  have hle' : off.toNat ≤ r.2.size.toNat := by rwa [hw.grown.size]
  have hsize := toNat_size_resized hle' hadd
  rw [hw.grown.size] at hsize
  have hfields := resized_fields r.2 off len
  have hbyte : ∀ j x, (r.1.iupdate i (resized r.2 off len)).byteAt j x
      = (r.1.iupdate i r.2).byteAt j x := fun j ↦ byteAt_iupdate_congr hfields.1 hfields.2
  have hkept := hst.kept
  rw [iupdate_self] at hkept
  refine ⟨List.ext_getElem? fun x ↦ ?_, fun j hj ↦ ?_⟩
  · rw [FileBytes.getElem?_splice (by rw [length_contents]; exact hle), getElem?_contents,
      getElem?_contents, iupdate_dinode, update_self, hsize, hs, hbyte]
    by_cases hin : off.toNat ≤ x ∧ x < off.toNat + len.toNat
    · rw [if_pos (by omega), if_pos hin, hst.written x hin.1 hin.2, source,
        List.getElem?_eq_getElem (by omega), List.getD_eq_getElem]
    · rw [if_neg hin]
      by_cases hx : x < (d.dinode i).size.toNat
      · rw [if_pos (by omega), if_pos hx, hkept i x (hd.blockAt_div_ne hx) fun h ↦ hin h.2]
      · rw [if_neg (by omega), if_neg hx]
  · have hleaves := leaves_of_write hw hst hj
    refine ⟨?_, fun q ↦ ?_, fun x hx ↦ ?_⟩
    · rw [iupdate_dinode, update_of_ne hj, hw.grown.dinode]
    · rw [stored_iupdate_congr hfields.1 hfields.2, hleaves.stored]
    · rw [hbyte, hleaves.byte x hx]

/-- What a write of `s` at `off` to inode `i` leaves. -/
structure Replaced (L : Layout) (i : Fin n) (d d' : FsDisk n) (off : ℕ) (s : List (BitVec 8)) :
    Prop where
  owned : d'.Owned L
  type : (d'.dinode i).type = (d.dinode i).type
  dense : d'.Dense i
  contents : d'.contents i = FileBytes.splice (d.contents i) off s
  leaves : ∀ j, j ≠ i → Leaves j d d'
  room : ∀ k, d.HasRoom L i off (s.length + k) → d'.HasRoom L i (off + s.length) k

/-- **The outcomes of `writei`**: it refuses the bytes, it stores them, or there is no room. -/
theorem writeiRet_cases (off : Word) (h : d.Owned L) (hi : (d.dinode i).type ≠ 0) (hd : d.Dense i)
    (hs : s.length = len.toNat) :
    Outcome (fun x ↦ ¬CanWrite (d.dinode i) off len ∧ x = (d, d.dinode i, -1) ∨
        CanWrite (d.dinode i) off len ∧ x.2 = (x.1.dinode i, len) ∧
          Replaced L i d x.1 off.toNat s)
      (fun _ ↦ CanWrite (d.dinode i) off len ∧ ¬d.HasRoom L i off.toNat len.toNat)
      (d.writeiRet L i (d.dinode i) off len (source s)) := by
  by_cases hcan : CanWrite (d.dinode i) off len
  · have hadd := toNat_add_of_not_lt (not_or.mp hcan.2.1).2
    have hwritten : Outcome (Written L i d off len) (· ≠ .freeingFreeBlock)
        (d.writei L i (d.dinode i) off len (source s)) := writei_spec h hi hd
    have hroom := writeLoop_room (i := i) len.toNat off.toNat len.toNat (source s)
      (by rwa [iupdate_self]) hi (hadd ▸ hcan.2.2)
    rw [iupdate_self] at hroom
    rw [writeiRet, if_pos hcan]
    cases hloop : writeLoop L len.toNat d (d.dinode i) off.toNat len.toNat (source s) with
    | ok r =>
      have hw := (writeLoop_spec _ (by rwa [iupdate_self]) hi le_rfl).of_ok hloop
      have heq := writei_eq hd hcan hloop hw
      have hspec := hwritten.of_ok heq
      obtain ⟨hcontents, hleaves⟩ := writei_contents h hi hd hcan hs hloop
      rw [heq, ok_bind]
      have hself : (r.1.iupdate i (resized r.2 off len)).dinode i = resized r.2 off len :=
        update_self ..
      refine .ok (.inr ⟨hcan, ?_, hspec.owned, ?_, hspec.dense, hcontents, hleaves, fun k hk ↦ ?_⟩)
      · exact congrArg (·, len) hself.symm
      · exact (congrArg Dinode.type hself).trans hspec.type
      · obtain ⟨htype, haddrs⟩ := resized_fields r.2 off len
        have hfree := hroom.of_ok hloop
        rw [hs] at hk ⊢
        refine hk.rest hspec.keeps (fun q hq ↦ ?_) hfree
        rw [stored_iupdate_congr htype haddrs]
        exact hw.filled hq
    | error e =>
      have heq : d.writei L i (d.dinode i) off len (source s) = .error e := by
        rw [writei, if_pos hcan, hloop]
        rfl
      rw [heq]
      exact .error ⟨hcan, not_le.mpr (hroom.of_error hloop)⟩
  · rw [writeiRet, writei, if_neg hcan, ok_bind, if_neg hcan]
    exact .ok (.inl ⟨hcan, rfl⟩)

theorem CanWrite.ne_neg_one (h : CanWrite ip off len) : len ≠ -1 := by
  rintro rfl
  have hadd := toNat_add_of_not_lt (not_or.mp h.2.1).2
  have hle := h.2.2
  rw [hadd] at hle
  exact absurd ((Nat.le_add_left _ _).trans hle) (by decide)

/-- **An inode is an array of bytes.** `writei` refuses a range that starts behind the end, wraps
around or ends behind the largest file; every other one it replaces, if there is room for it, and it
returns the number of its bytes. `readi` returns what is there. -/
theorem inode_array (h : d.Owned L) (hi : (d.dinode i).type ≠ 0) (hdev : (d.dinode i).type ≠ tDev)
    (hd : d.Dense i) (off len : Word) (s : List (BitVec 8)) (hs : s.length = len.toNat) :
    (d.writeiRet L i (d.dinode i) off len (source s) = .ok (d, d.dinode i, -1) ↔
      (d.dinode i).size.toNat < off.toNat ∨ 2 ^ 32 ≤ off.toNat + len.toNat ∨
        maxFile * bSize < off.toNat + len.toNat) ∧
    (∀ c, FileBytes.writei (d.contents i) off len s = some c → d.HasRoom L i off.toNat len.toNat →
      ∃ d', d.writeiRet L i (d.dinode i) off len (source s) = .ok (d', d'.dinode i, len) ∧
        d'.Owned L ∧ d'.Dense i ∧ d'.contents i = c ∧
        ∀ j, j ≠ i → Leaves j d d' ∧ (d.Dense j → d'.contents j = d.contents j)) ∧
    d.readi L (d.dinode i) off len
      = .ok (d, d.dinode i, FileBytes.readi (d.contents i) off len) ∧
    ∀ bs, FileBytes.readi (d.contents i) off len = some bs →
      bs.length = min len.toNat ((d.dinode i).size.toNat - off.toNat) := by
  have hcan : CanWrite (d.dinode i) off len ↔ _ := canWrite_iff hdev
  have hcases := writeiRet_cases off h hi hd hs
  rw [← length_contents]
  refine ⟨⟨fun hret ↦ ?_, fun hbad ↦ ?_⟩, fun c hc hroom ↦ ?_, readi_contents hi hdev hd off len,
    fun bs ↦ FileBytes.length_readi⟩
  · rcases hcases.of_ok hret with ⟨hno, -⟩ | ⟨hyes, heq, -⟩
    · by_contra hgood
      exact hno (hcan.mpr hgood)
    · exact absurd (congrArg Prod.snd heq).symm hyes.ne_neg_one
  · have hno : ¬CanWrite (d.dinode i) off len := fun h ↦ hcan.mp h hbad
    rw [writeiRet, writei, if_neg hno, ok_bind, if_neg hno]
  · rw [FileBytes.writei] at hc
    split at hc
    · cases hc
    · next hgood =>
      have hyes := hcan.mpr hgood
      cases hret : d.writeiRet L i (d.dinode i) off len (source s) with
      | error e => exact absurd hroom (hcases.of_error hret).2
      | ok x =>
        obtain ⟨-, heq, hrep⟩ := (hcases.of_ok hret).resolve_left fun hno ↦ hno.1 hyes
        refine ⟨x.1, ?_, hrep.owned, hrep.dense, hrep.contents.trans (Option.some.inj hc),
          fun j hj ↦ ⟨hrep.leaves j hj, (hrep.leaves j hj).contents_eq⟩⟩
        rw [← heq]

open Icache in
/-- Three bytes are written to an empty file. -/
theorem inode_array_fileImage : ∃ d' : FsDisk 1,
    (fileImage 1 0).writeiRet smallLayout 0 ((fileImage 1 0).dinode 0) 0 3 (source [7, 8, 9])
      = .ok (d', d'.dinode 0, 3) ∧ d'.contents 0 = [7, 8, 9] := by
  have hd : (fileImage 1 0).Dense 0 := fun bn hbn ↦ absurd hbn (Nat.not_lt_zero _)
  obtain ⟨-, hwrite, -⟩ := inode_array (owned_fileImage 1 0 (k := 2)) (i := 0) (by decide)
    (by decide) hd 0 3 [7, 8, 9] rfl
  obtain ⟨d', hret, -, -, hc, -⟩ := hwrite [7, 8, 9] (by decide) (by decide +kernel)
  exact ⟨d', hret, hc⟩

end FsDisk

end OperatingSystems
