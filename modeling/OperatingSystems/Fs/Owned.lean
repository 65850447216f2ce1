import OperatingSystems.Fs.Block
import OperatingSystems.Lib.Owns
import OperatingSystems.Lib.Result

/-!
# Block ownership

The places in which a disk stores block numbers are the entries of `addrs[]` and of the indirect
block of every allocated inode. On a consistent disk they own exactly the blocks of the data area
whose bit is set, and the blocks in front of the data area are all marked.

While a function works on a locked inode, what its cached fields and the disk store together is the
disk with these fields written back. All statements about `bmap` and the loops are about this disk:
`Grown` says what they do to it.
-/

namespace OperatingSystems

open Function

variable {b : BlockNo} {bn : ℕ}

theorem Layout.InData.ne_zero {L : Layout} (h : L.InData b) : b ≠ 0 := by
  rintro rfl
  exact absurd L.datastart_pos (not_lt.mpr h.1)

inductive Pointer
  /-- `addrs[k]` -/
  | direct (k : Fin (ndirect + 1))
  /-- Entry `j` of the indirect block -/
  | indirect (j : Fin nindirect)
  deriving DecidableEq

def Pointer.last : Pointer := .direct (Fin.last ndirect)

/-- The place for the number of block `bn` of the content. -/
def Pointer.ofBlock (bn : ℕ) : Option Pointer :=
  if h : bn < ndirect then some (.direct ⟨bn, Nat.lt_succ_of_lt h⟩)
  else if h : bn - ndirect < nindirect then some (.indirect ⟨bn - ndirect, h⟩)
  else none

variable {q : Pointer}

theorem Pointer.ofBlock_ne_last (h : ofBlock bn = some q) : q ≠ last := by
  rw [ofBlock] at h
  split at h
  · next hlt =>
    rintro rfl
    have heq := congrArg Fin.val (Pointer.direct.inj (Option.some.inj h))
    exact hlt.ne heq
  · split at h
    · rintro rfl
      cases h
    · cases h

/-- The block number stored in a place, `0` when the inode is free or has no indirect block. -/
def Dinode.pointer (ip : Dinode) (data : Disk) : Pointer → BlockNo
  | .direct k => if ip.type = 0 then 0 else ip.addrs k
  | .indirect j => if ip.type = 0 ∨ ip.indirect = 0 then 0 else data ip.indirect j

theorem Dinode.pointer_update {ip : Dinode} {data : Disk} (h : ip.type ≠ 0 → ip.indirect ≠ b)
    (c : Block) (q : Pointer) : ip.pointer (update data b c) q = ip.pointer data q := by
  cases q with
  | direct k => rfl
  | indirect j =>
    rw [pointer, pointer]
    by_cases h₀ : ip.type = 0 ∨ ip.indirect = 0
    · rw [if_pos h₀, if_pos h₀]
    · rw [if_neg h₀, if_neg h₀, update_of_ne (h (not_or.mp h₀).1)]

namespace FsDisk

variable {n len : ℕ} {L : Layout} {d d' d'' : FsDisk n} {i : Fin n} {ip ip' ip'' : Dinode}
  {b : BlockNo} {j : Fin nindirect} {k : Fin (ndirect + 1)} {r : FsDisk n × BlockNo} {off : Word}
  {src : ℕ → BitVec 8} {bs : List BlockNo}

def stored (d : FsDisk n) (x : Fin n × Pointer) : BlockNo := (d.dinode x.1).pointer d.data x.2

/-- The places own the marked blocks of the data area. -/
structure Owned (L : Layout) (d : FsDisk n) : Prop where
  owns : Owns d.stored fun b ↦ L.InData b ∧ d.bitmap b = true
  reserved : ∀ b : BlockNo, b.toNat < L.datastart → d.bitmap b = true

/-- The block number stored for block `bn` of an inode. -/
def blockAt (d : FsDisk n) (i : Fin n) (bn : ℕ) : BlockNo :=
  (Pointer.ofBlock bn).elim 0 fun q ↦ d.stored (i, q)

/-- Every block below the size of the inode is allocated. -/
def Dense (d : FsDisk n) (i : Fin n) : Prop :=
  ∀ bn, bn * bSize < (d.dinode i).size.toNat → d.blockAt i bn ≠ 0

instance (d : FsDisk n) (i : Fin n) : Decidable (d.Dense i) :=
  decidable_of_iff (∀ bn < ((d.dinode i).size.toNat + (bSize - 1)) / bSize, d.blockAt i bn ≠ 0)
    (forall_congr' fun bn ↦ by
      rw [Nat.lt_div_iff_mul_lt (by decide)]
      simp only [bSize]
      exact imp_congr_left (by omega))

/-! ## What the elementary updates do to the places -/

theorem stored_iupdate_self (q : Pointer) :
    (d.iupdate i ip).stored (i, q) = ip.pointer d.data q := by
  rw [stored, iupdate_dinode, iupdate_data, update_self]

theorem stored_iupdate_of_ne {j : Fin n} (h : j ≠ i) (q : Pointer) :
    (d.iupdate i ip).stored (j, q) = d.stored (j, q) := by
  rw [stored, iupdate_dinode, iupdate_data, update_of_ne h, stored]

@[simp] theorem iupdate_iupdate : (d.iupdate i ip).iupdate i ip' = d.iupdate i ip' := by
  rw [iupdate, iupdate, iupdate, update_idem]

@[simp] theorem iupdate_self : d.iupdate i (d.dinode i) = d := by
  rw [iupdate, update_eq_self]

theorem indirect_eq_stored {j : Fin n} (hj : (d.dinode j).type ≠ 0) :
    (d.dinode j).indirect = d.stored (j, .last) := by
  rw [stored, Pointer.last, Dinode.pointer, if_neg hj, Dinode.indirect]

theorem stored_write (hb : ∀ j, d.stored (j, .last) ≠ b) (c : Block) :
    (d.write b c).stored = d.stored := by
  funext x
  rw [stored, write_dinode, write_data, stored]
  exact Dinode.pointer_update (fun hx ↦ indirect_eq_stored hx ▸ hb x.1) c x.2

theorem stored_iupdate_congr (ht : ip'.type = ip.type) (ha : ip'.addrs = ip.addrs) :
    (d.iupdate i ip').stored = (d.iupdate i ip).stored := by
  funext ⟨j, q⟩
  by_cases hj : j = i
  · subst hj
    have hind : ip'.indirect = ip.indirect := congrFun ha _
    rw [stored_iupdate_self, stored_iupdate_self]
    cases q with
    | direct k => rw [Dinode.pointer, Dinode.pointer, ht, ha]
    | indirect k => rw [Dinode.pointer, Dinode.pointer, ht, hind]
  · rw [stored_iupdate_of_ne hj, stored_iupdate_of_ne hj]

theorem Owned.congr (h : d.Owned L) (hs : d'.stored = d.stored) (hb : d'.bitmap = d.bitmap) :
    d'.Owned L := by
  refine ⟨?_, ?_⟩
  · rw [hs, hb]
    exact h.owns
  · rw [hb]
    exact h.reserved

/-! ## The block allocator -/

theorem balloc_spec (L : Layout) (d : FsDisk n) :
    Outcome (fun r ↦ d.bitmap r.2 = false ∧ r.2.toNat < L.size ∧
      r.1 = (d.mark r.2 true).write r.2 fun _ ↦ 0) (· ≠ .freeingFreeBlock) (d.balloc L) := by
  unfold balloc
  split
  · next b hb =>
    obtain ⟨x, hx, rfl⟩ := List.mem_map.mp (List.mem_of_find?_eq_some hb)
    refine .ok ⟨by simpa using List.find?_some hb, ?_, rfl⟩
    exact (BitVec.toNat_ofNat .. ▸ Nat.mod_le _ _).trans_lt (List.mem_range.mp hx)
  · exact .error (by decide)

theorem Owned.inData (h : d.Owned L) (hb : d.bitmap b = false) (hlt : b.toNat < L.size) :
    L.InData b := by
  refine ⟨?_, hlt⟩
  by_contra hlt'
  rw [h.reserved b (not_le.mp hlt')] at hb
  cases hb

theorem Owned.ne_zero (h : d.Owned L) (hb : d.bitmap b = false) : b ≠ 0 := by
  rintro rfl
  rw [h.reserved 0 L.datastart_pos] at hb
  cases hb

theorem Owned.stored_ne (h : d.Owned L) (hb : d.bitmap b = false) (x : Fin n × Pointer) :
    d.stored x ≠ b := by
  refine h.owns.ne_of_not_used (fun hu ↦ ?_) (h.ne_zero hb) x
  rw [hb] at hu
  cases hu.2

theorem Owned.alloc {x : Fin n × Pointer} (h : d.Owned L) (hb : d.bitmap b = false)
    (hlt : b.toNat < L.size) (hx : d.stored x = 0)
    (hst : ∀ y, d'.stored y = if y = x then b else d.stored y)
    (hbit : d'.bitmap = update d.bitmap b true) : d'.Owned L := by
  have hin := h.inData hb hlt
  refine ⟨h.owns.alloc hx (fun hu ↦ ?_) (h.ne_zero hb) hst fun c ↦ ?_, fun c hc ↦ ?_⟩
  · rw [hb] at hu
    cases hu.2
  · rw [hbit]
    by_cases hcb : c = b
    · subst hcb
      simp [hin]
    · simp [hcb]
  · rw [hbit]
    by_cases hcb : c = b
    · rw [hcb, update_self]
    · rw [update_of_ne hcb, h.reserved c hc]

/-! ## Filling an empty place -/

theorem pointer_setAddr {data : Disk} (hi : ip.type ≠ 0) (hk : ip.addrs k = 0)
    (hb : ip.indirect ≠ b) (q : Pointer) : (ip.setAddr k b).pointer (update data b fun _ ↦ 0) q
      = if q = .direct k then b else ip.pointer data q := by
  cases q with
  | direct k' =>
    rw [Dinode.pointer, Dinode.pointer, Dinode.setAddr_type, if_neg hi, if_neg hi,
      Dinode.setAddr_addrs, update_apply]
    simp only [Pointer.direct.injEq]
  | indirect j =>
    rw [if_neg (by simp)]
    by_cases hlast : k = Fin.last ndirect
    · subst hlast
      have hnew : (ip.setAddr (Fin.last ndirect) b).indirect = b := by
        rw [Dinode.indirect, Dinode.setAddr_addrs, update_self]
      have hold : ip.type = 0 ∨ ip.indirect = 0 := .inr hk
      rw [Dinode.pointer, Dinode.pointer, if_pos hold, hnew, update_self, ite_self]
    · have hold : (ip.setAddr k b).indirect = ip.indirect := by
        rw [Dinode.indirect, Dinode.setAddr_addrs, update_of_ne (Ne.symm hlast),
          Dinode.indirect]
      rw [Dinode.pointer_update fun _ ↦ hold ▸ hb, Dinode.pointer, Dinode.pointer, hold,
        Dinode.setAddr_type]

theorem pointer_entry {data : Disk} (hi : ip.type ≠ 0) (h₀ : ip.indirect ≠ 0) (q : Pointer) :
    ip.pointer (update data ip.indirect (update (data ip.indirect) j b)) q
      = if q = .indirect j then b else ip.pointer data q := by
  cases q with
  | direct k => rw [if_neg (by simp), Dinode.pointer, Dinode.pointer]
  | indirect j' =>
    have hne : ¬(ip.type = 0 ∨ ip.indirect = 0) := not_or.mpr ⟨hi, h₀⟩
    rw [Dinode.pointer, Dinode.pointer, if_neg hne, if_neg hne, update_self,
      update_apply]
    simp only [Pointer.indirect.injEq]

/-- What `bmap` and the loops over it do to the cached fields `ip` of inode `i` and to the disk. -/
structure Grown (L : Layout) (i : Fin n) (d : FsDisk n) (ip : Dinode) (d' : FsDisk n)
    (ip' : Dinode) : Prop where
  owned : (d'.iupdate i ip').Owned L
  keeps : ∀ x, (d.iupdate i ip).stored x ≠ 0 →
    (d'.iupdate i ip').stored x = (d.iupdate i ip).stored x
  dinode : d'.dinode = d.dinode
  fields : ip' = { ip with addrs := ip'.addrs }

theorem Grown.refl (h : (d.iupdate i ip).Owned L) : Grown L i d ip d ip :=
  ⟨h, fun _ _ ↦ rfl, rfl, rfl⟩

theorem Grown.trans (h : Grown L i d ip d' ip') (h' : Grown L i d' ip' d'' ip'') :
    Grown L i d ip d'' ip'' := by
  refine ⟨h'.owned, fun x hx ↦ ?_, h'.dinode.trans h.dinode, ?_⟩
  · have hx' := h.keeps x hx
    rw [h'.keeps x (hx' ▸ hx), hx']
  · rw [h'.fields, h.fields]

theorem Grown.type (h : Grown L i d ip d' ip') : ip'.type = ip.type := by rw [h.fields]

theorem Grown.size (h : Grown L i d ip d' ip') : ip'.size = ip.size := by rw [h.fields]

theorem Grown.blockAt (h : Grown L i d ip d' ip') (j : Fin n) (bn : ℕ)
    (hbn : (d.iupdate i ip).blockAt j bn ≠ 0) :
    (d'.iupdate i ip').blockAt j bn = (d.iupdate i ip).blockAt j bn := by
  unfold FsDisk.blockAt at hbn ⊢
  cases hq : Pointer.ofBlock bn with
  | none => rfl
  | some q =>
    rw [hq] at hbn
    exact h.keeps (j, q) hbn

theorem stored_write_data (h : (d.iupdate i ip).Owned L) (hq : q ≠ .last)
    (hb : (d.iupdate i ip).stored (i, q) = b) (hb₀ : b ≠ 0) (c : Block) :
    ((d.write b c).iupdate i ip).stored = (d.iupdate i ip).stored := by
  refine stored_write (d := d.iupdate i ip) (fun j hj ↦ hq ?_) c
  rw [← hb] at hj hb₀
  exact congrArg Prod.snd (h.owns.inj _ _ hb₀ hj.symm)

theorem Grown.write (h : (d.iupdate i ip).Owned L) (hq : q ≠ .last)
    (hb : (d.iupdate i ip).stored (i, q) = b) (hb₀ : b ≠ 0) (c : Block) :
    Grown L i d ip (d.write b c) ip := by
  have hst := stored_write_data h hq hb hb₀ c
  exact ⟨⟨hst ▸ h.owns, h.reserved⟩, fun x _ ↦ congrFun hst x, rfl, rfl⟩

/-! ## Mapping a block of the content -/

/-- Nothing is done to the bytes of any inode, and only places of block `bn` of inode `i` are
filled. -/
structure Spares (i : Fin n) (d : FsDisk n) (ip : Dinode) (bn : ℕ) (d' : FsDisk n)
    (ip' : Dinode) : Prop where
  only : ∀ x, (d'.iupdate i ip').stored x ≠ 0 → (d.iupdate i ip).stored x ≠ 0 ∨
    ∃ q, Pointer.ofBlock bn = some q ∧ (x = (i, q) ∨ x = (i, .last) ∧ ndirect ≤ bn)
  data : ∀ x, x.2 ≠ .last → (d.iupdate i ip).stored x ≠ 0 →
    d'.data ((d.iupdate i ip).stored x) = d.data ((d.iupdate i ip).stored x)

theorem Spares.refl (bn : ℕ) : Spares i d ip bn d ip := ⟨fun _ h ↦ .inl h, fun _ _ _ ↦ rfl⟩

theorem Spares.trans (h : Spares i d ip bn d' ip') (hg : Grown L i d ip d' ip')
    (h' : Spares i d' ip' bn d'' ip'') : Spares i d ip bn d'' ip'' := by
  refine ⟨fun x hx ↦ ?_, fun x hlast hx ↦ ?_⟩
  · rcases h'.only x hx with hx | hx
    · exact h.only x hx
    · exact .inr hx
  · have hkeep := hg.keeps x hx
    have hdata := h'.data x hlast (hkeep ▸ hx)
    rw [hkeep] at hdata
    rw [hdata, h.data x hlast hx]

/-- What `bmap` returns for block `bn`: the number now stored for it, which is not null. Where one
is stored already, nothing changes. -/
structure Mapped (L : Layout) (i : Fin n) (d : FsDisk n) (ip : Dinode) (q : Pointer)
    (r : FsDisk n × Dinode × BlockNo) : Prop where
  grown : Grown L i d ip r.1 r.2.1
  addr : (r.1.iupdate i r.2.1).stored (i, q) = r.2.2
  ne_zero : r.2.2 ≠ 0
  same : (d.iupdate i ip).stored (i, q) ≠ 0 → r.1 = d ∧ r.2.1 = ip

/-- The free block `b` has entered the empty place `q` of the inode. -/
structure Filled (L : Layout) (i : Fin n) (d : FsDisk n) (ip : Dinode) (q : Pointer) (b : BlockNo)
    (d' : FsDisk n) (ip' : Dinode) : Prop where
  free : d.bitmap b = false
  lt : b.toNat < L.size
  empty : (d.iupdate i ip).stored (i, q) = 0
  stored : ∀ y, (d'.iupdate i ip').stored y = if y = (i, q) then b else (d.iupdate i ip).stored y
  bitmap : d'.bitmap = update d.bitmap b true
  dinode : d'.dinode = d.dinode
  fields : ip' = { ip with addrs := ip'.addrs }
  data : ∀ x, x.2 ≠ .last → (d.iupdate i ip).stored x ≠ 0 →
    d'.data ((d.iupdate i ip).stored x) = d.data ((d.iupdate i ip).stored x)

theorem Filled.mapped (hf : Filled L i d ip q b d' ip') (h : (d.iupdate i ip).Owned L) :
    Mapped L i d ip q (d', ip', b) := by
  refine ⟨⟨h.alloc hf.free hf.lt hf.empty hf.stored hf.bitmap, fun x hx ↦ ?_, hf.dinode, hf.fields⟩,
    ?_, h.ne_zero hf.free, fun h₀ ↦ absurd hf.empty h₀⟩
  · rw [hf.stored, if_neg]
    rintro rfl
    exact hx hf.empty
  · rw [hf.stored, if_pos rfl]

theorem Filled.spares {q' : Pointer} (hf : Filled L i d ip q b d' ip')
    (hq : Pointer.ofBlock bn = some q') (hcase : q = q' ∨ q = .last ∧ ndirect ≤ bn) :
    Spares i d ip bn d' ip' := by
  refine ⟨fun x hx ↦ ?_, hf.data⟩
  rw [hf.stored] at hx
  by_cases hxq : x = (i, q)
  · refine .inr ⟨q', hq, ?_⟩
    rcases hcase with rfl | ⟨rfl, hle⟩
    · exact .inl hxq
    · exact .inr ⟨hxq, hle⟩
  · rw [if_neg hxq] at hx
    exact .inl hx

theorem stored_direct (hi : ip.type ≠ 0) (k : Fin (ndirect + 1)) :
    (d.iupdate i ip).stored (i, .direct k) = ip.addrs k := by
  rw [stored_iupdate_self, Dinode.pointer, if_neg hi]

theorem stored_indirect (hi : ip.type ≠ 0) (h₀ : ip.indirect ≠ 0) (j : Fin nindirect) :
    (d.iupdate i ip).stored (i, .indirect j) = d.data ip.indirect j := by
  rw [stored_iupdate_self, Dinode.pointer, if_neg (not_or.mpr ⟨hi, h₀⟩)]

theorem stored_setAddr (h : (d.iupdate i ip).Owned L) (hi : ip.type ≠ 0) (hk : ip.addrs k = 0)
    (hb : d.bitmap r.2 = false) (hd : r.1 = (d.mark r.2 true).write r.2 fun _ ↦ 0)
    (y : Fin n × Pointer) : (r.1.iupdate i (ip.setAddr k r.2)).stored y
      = if y = (i, .direct k) then r.2 else (d.iupdate i ip).stored y := by
  have hfresh := h.stored_ne hb
  obtain ⟨j, q⟩ := y
  by_cases hj : j = i
  · subst hj
    have hind : ip.indirect ≠ r.2 := fun hind ↦ hfresh (j, .last) <| by
      rw [Pointer.last, stored_direct hi, ← hind, Dinode.indirect]
    rw [stored_iupdate_self, stored_iupdate_self, hd, write_data, mark_data,
      pointer_setAddr hi hk hind]
    simp only [Prod.mk.injEq, true_and]
  · have hind : (d.dinode j).type ≠ 0 → (d.dinode j).indirect ≠ r.2 := by
      intro hj₀
      rw [indirect_eq_stored hj₀, ← stored_iupdate_of_ne hj]
      exact hfresh (j, .last)
    rw [if_neg fun heq ↦ hj (congrArg Prod.fst heq), stored_iupdate_of_ne hj,
      stored_iupdate_of_ne hj, hd, stored, write_dinode, write_data]
    exact Dinode.pointer_update hind _ q

theorem filled_balloc (h : (d.iupdate i ip).Owned L) (hi : ip.type ≠ 0) (hk : ip.addrs k = 0)
    (hr : d.bitmap r.2 = false ∧ r.2.toNat < L.size ∧ r.1 = (d.mark r.2 true).write r.2 fun _ ↦ 0) :
    Filled L i d ip (.direct k) r.2 r.1 (ip.setAddr k r.2) := by
  obtain ⟨hb, hlt, hd⟩ := hr
  refine ⟨hb, hlt, ?_, stored_setAddr h hi hk hb hd, ?_, ?_, rfl, fun x _ _ ↦ ?_⟩
  · rw [stored_direct hi, hk]
  · rw [hd, write_bitmap, mark_bitmap]
  · rw [hd, write_dinode, mark_dinode]
  · rw [hd, write_data, update_of_ne (h.stored_ne hb x), mark_data]

theorem indirect_eq_stored_self (hi : ip.type ≠ 0) :
    (d.iupdate i ip).stored (i, .last) = ip.indirect := by
  rw [Pointer.last, stored_direct hi, Dinode.indirect]

theorem stored_entry (h : (d.iupdate i ip).Owned L) (hi : ip.type ≠ 0) (h₀ : ip.indirect ≠ 0)
    (hb : d.bitmap r.2 = false) (hd : r.1 = (d.mark r.2 true).write r.2 fun _ ↦ 0)
    (y : Fin n × Pointer) :
    ((r.1.write ip.indirect (update (r.1.data ip.indirect) j r.2)).iupdate i ip).stored y
      = if y = (i, .indirect j) then r.2 else (d.iupdate i ip).stored y := by
  have hfresh := h.stored_ne hb
  have hlast := indirect_eq_stored_self (d := d) (i := i) hi
  have hne : ip.indirect ≠ r.2 := hlast ▸ hfresh (i, .last)
  obtain ⟨j', q⟩ := y
  by_cases hj' : j' = i
  · subst hj'
    rw [stored_iupdate_self, stored_iupdate_self, write_data, pointer_entry hi h₀, hd, write_data,
      mark_data, Dinode.pointer_update fun _ ↦ hne]
    simp only [Prod.mk.injEq, true_and]
  · have hother : (d.dinode j').type ≠ 0 →
        (d.dinode j').indirect ≠ ip.indirect ∧ (d.dinode j').indirect ≠ r.2 := by
      intro ht
      rw [indirect_eq_stored ht, ← stored_iupdate_of_ne hj']
      refine ⟨fun heq ↦ hj' ?_, hfresh (j', .last)⟩
      rw [← hlast] at heq h₀
      exact congrArg Prod.fst (h.owns.inj _ _ h₀ heq.symm).symm
    rw [if_neg fun heq ↦ hj' (congrArg Prod.fst heq), stored_iupdate_of_ne hj',
      stored_iupdate_of_ne hj', stored, write_dinode, write_data, hd, write_dinode, write_data]
    exact (Dinode.pointer_update (fun ht ↦ (hother ht).1) _ q).trans
      (Dinode.pointer_update (fun ht ↦ (hother ht).2) _ q)

theorem filled_entry (h : (d.iupdate i ip).Owned L) (hi : ip.type ≠ 0) (h₀ : ip.indirect ≠ 0)
    (hj : d.data ip.indirect j = 0)
    (hr : d.bitmap r.2 = false ∧ r.2.toNat < L.size ∧ r.1 = (d.mark r.2 true).write r.2 fun _ ↦ 0) :
    Filled L i d ip (.indirect j) r.2
      (r.1.write ip.indirect (update (r.1.data ip.indirect) j r.2)) ip := by
  obtain ⟨hb, hlt, hd⟩ := hr
  refine ⟨hb, hlt, ?_, stored_entry h hi h₀ hb hd, ?_, ?_, rfl, fun x hlast hx ↦ ?_⟩
  · rw [stored_indirect hi h₀, hj]
  · rw [hd, write_bitmap, write_bitmap, mark_bitmap]
  · rw [hd, write_dinode, write_dinode, mark_dinode]
  · have hne : (d.iupdate i ip).stored x ≠ ip.indirect := by
      rw [← indirect_eq_stored_self (d := d) (i := i) hi]
      intro heq
      exact hlast (congrArg Prod.snd (h.owns.inj _ _ hx heq))
    rw [write_data, update_of_ne hne, hd, write_data,
      update_of_ne (h.stored_ne hb x), mark_data]

theorem loadIndirect_spec (h : (d.iupdate i ip).Owned L) (hi : ip.type ≠ 0) :
    Outcome (fun r ↦ Grown L i d ip r.1 r.2 ∧ r.2.indirect ≠ 0 ∧ (ip.indirect ≠ 0 → r = (d, ip)) ∧
        ∀ bn q, Pointer.ofBlock bn = some q → ndirect ≤ bn → Spares i d ip bn r.1 r.2)
      (· ≠ .freeingFreeBlock) (d.loadIndirect L ip) := by
  unfold loadIndirect
  by_cases h₀ : ip.indirect = 0
  · rw [if_pos h₀]
    refine (balloc_spec L d).bind fun r hr ↦ .ok ?_
    have hf := filled_balloc (k := Fin.last ndirect) h hi h₀ hr
    refine ⟨(hf.mapped h).grown, ?_, fun hne ↦ absurd h₀ hne,
      fun bn q hq hle ↦ hf.spares hq (.inr ⟨rfl, hle⟩)⟩
    rw [Dinode.indirect, Dinode.setAddr_addrs, update_self]
    exact h.ne_zero hr.1
  · rw [if_neg h₀]
    exact .ok ⟨.refl h, h₀, fun _ ↦ rfl, fun bn _ _ _ ↦ .refl bn⟩

theorem indirectEntry_spec (h : (d.iupdate i ip).Owned L) (hi : ip.type ≠ 0) (h₀ : ip.indirect ≠ 0)
    (j : Fin nindirect) (hq : Pointer.ofBlock bn = some (.indirect j)) :
    Outcome (fun r ↦ Mapped L i d ip (.indirect j) r ∧ Spares i d ip bn r.1 r.2.1)
      (· ≠ .freeingFreeBlock) (d.indirectEntry L ip j) := by
  unfold indirectEntry
  by_cases hj : d.data ip.indirect j = 0
  · rw [if_pos hj]
    refine (balloc_spec L d).bind fun r hr ↦ .ok ?_
    have hf := filled_entry h hi h₀ hj hr
    exact ⟨hf.mapped h, hf.spares hq (.inl rfl)⟩
  · rw [if_neg hj]
    exact .ok ⟨⟨.refl h, stored_indirect hi h₀ j, hj, fun _ ↦ ⟨rfl, rfl⟩⟩, .refl bn⟩

/-- **`bmap` on a consistent disk.** It touches no byte of a file. -/
theorem bmap_spec (h : (d.iupdate i ip).Owned L) (hi : ip.type ≠ 0) (bn : ℕ) :
    Outcome (fun r ↦ ∃ q, Pointer.ofBlock bn = some q ∧ Mapped L i d ip q r ∧
        Spares i d ip bn r.1 r.2.1)
      (· ≠ .freeingFreeBlock) (d.bmap L ip bn) := by
  unfold bmap
  by_cases hbn : bn < ndirect
  · have hq : Pointer.ofBlock bn = some (.direct ⟨bn, Nat.lt_succ_of_lt hbn⟩) := by
      rw [Pointer.ofBlock, dif_pos hbn]
    rw [dif_pos hbn]
    dsimp only
    split
    · next hk =>
      refine (balloc_spec L d).bind fun r hr ↦ .ok ⟨_, hq, ?_⟩
      have hf := filled_balloc h hi hk hr
      exact ⟨hf.mapped h, hf.spares hq (.inl rfl)⟩
    · next hk =>
      exact .ok ⟨_, hq, ⟨.refl h, stored_direct hi _, hk, fun _ ↦ ⟨rfl, rfl⟩⟩, .refl bn⟩
  · rw [dif_neg hbn]
    by_cases hbn' : bn - ndirect < nindirect
    · have hq : Pointer.ofBlock bn = some (.indirect ⟨bn - ndirect, hbn'⟩) := by
        rw [Pointer.ofBlock, dif_neg hbn, dif_pos hbn']
      rw [dif_pos hbn']
      refine (loadIndirect_spec h hi).bind fun r hr ↦ ?_
      obtain ⟨hg, hr₀, hsame, hs⟩ := hr
      refine (indirectEntry_spec hg.owned (hg.type ▸ hi) hr₀ _ hq).imp fun r' hr' ↦ ⟨_, hq, ?_⟩
      obtain ⟨hr', hs'⟩ := hr'
      refine ⟨⟨hg.trans hr'.grown, hr'.addr, hr'.ne_zero, fun hne ↦ ?_⟩,
        (hs bn _ hq (not_lt.mp hbn)).trans hg hs'⟩
      -- an entry can only be there if the indirect block is
      have h₀ : ip.indirect ≠ 0 := by
        intro h₀
        rw [stored_iupdate_self, Dinode.pointer, if_pos (.inr h₀)] at hne
        exact hne rfl
      obtain rfl := hsame h₀
      exact hr'.same hne
    · rw [dif_neg hbn']
      exact .error (by decide)

/-! ## The loops of `readi` and `writei` -/

/-- The blocks that hold `len` bytes from `off` on. -/
def Touches (off len bn : ℕ) : Prop := off / bSize ≤ bn ∧ bn * bSize < off + len ∧ 0 < len

theorem touches_iff {off : ℕ} (h : len ≠ 0) : Touches off len bn ↔
      bn = off / bSize ∨ Touches (off + chunk off len) (len - chunk off len) bn := by
  simp only [Touches, chunk, bSize]
  omega

theorem chunk_pos (off : ℕ) (h : len ≠ 0) : 0 < chunk off len := by
  simp only [chunk, bSize]
  omega

theorem blockAt_of_ofBlock (hq : Pointer.ofBlock bn = some q) :
    d.blockAt i bn = d.stored (i, q) := by
  rw [blockAt, hq, Option.elim_some]

theorem readLoop_spec (fuel : ℕ) {off : ℕ} (h : (d.iupdate i ip).Owned L) (hi : ip.type ≠ 0)
    (hm : ∀ bn, Touches off len bn → (d.iupdate i ip).blockAt i bn ≠ 0) :
    Outcome (fun r ↦ r.1 = d ∧ r.2.1 = ip) (· ≠ .freeingFreeBlock)
      (readLoop L fuel d ip off len) := by
  induction fuel generalizing off len with
  | zero => exact .ok ⟨rfl, rfl⟩
  | succ fuel ih =>
    rw [readLoop]
    by_cases hlen : len = 0
    · rw [if_pos hlen]
      exact .ok ⟨rfl, rfl⟩
    · rw [if_neg hlen]
      refine (bmap_spec h hi _).bind fun r hr ↦ ?_
      obtain ⟨q, hq, hr, -⟩ := hr
      have hfirst := hm _ ((touches_iff hlen).mpr (.inl rfl))
      rw [blockAt_of_ofBlock hq] at hfirst
      obtain ⟨hd, hip⟩ := hr.same hfirst
      rw [hd, hip]
      refine (ih fun bn hbn ↦ hm bn ((touches_iff hlen).mpr (.inr hbn))).bind fun r' hr' ↦ ?_
      exact .ok hr'

/-- What a write of `len` bytes at `off` does: all its blocks are allocated afterwards, and if they
were before, the inode's own fields are as they were. -/
structure Wrote (L : Layout) (i : Fin n) (d : FsDisk n) (ip : Dinode) (off len : ℕ)
    (r : FsDisk n × Dinode) : Prop where
  grown : Grown L i d ip r.1 r.2
  mapped : ∀ bn, Touches off len bn → (r.1.iupdate i r.2).blockAt i bn ≠ 0
  same : (∀ bn, Touches off len bn → (d.iupdate i ip).blockAt i bn ≠ 0) → r.2 = ip

theorem writeLoop_spec (fuel : ℕ) {off : ℕ} (h : (d.iupdate i ip).Owned L) (hi : ip.type ≠ 0)
    (hf : len ≤ fuel) : Outcome (Wrote L i d ip off len) (· ≠ .freeingFreeBlock)
      (writeLoop L fuel d ip off len src) := by
  induction fuel generalizing d ip off len src with
  | zero => exact .ok ⟨.refl h, fun bn hbn ↦ absurd hbn.2.2 (by omega), fun _ ↦ rfl⟩
  | succ fuel ih =>
    rw [writeLoop]
    by_cases hlen : len = 0
    · rw [if_pos hlen]
      exact .ok ⟨.refl h, fun bn hbn ↦ absurd hbn.2.2 (by omega), fun _ ↦ rfl⟩
    · rw [if_neg hlen]
      refine (bmap_spec h hi _).bind fun r hr ↦ ?_
      obtain ⟨q, hq, hr, -⟩ := hr
      dsimp only
      have hw := Grown.write hr.grown.owned (Pointer.ofBlock_ne_last hq) hr.addr hr.ne_zero
        ((r.1.data r.2.2).store (off % bSize) (chunk off len) src)
      have hg := hr.grown.trans hw
      have hpos := chunk_pos off hlen
      refine (ih hw.owned (hg.type ▸ hi) (by omega)).imp fun r' hr' ↦ ?_
      have hfirst : (r.1.iupdate i r.2.1).blockAt i (off / bSize) ≠ 0 := by
        rw [blockAt_of_ofBlock hq, hr.addr]
        exact hr.ne_zero
      refine ⟨hg.trans hr'.grown, fun bn hbn ↦ ?_, fun hm ↦ ?_⟩
      · rcases (touches_iff hlen).mp hbn with rfl | hbn
        · rw [(hw.trans hr'.grown).blockAt i _ hfirst]
          exact hfirst
        · exact hr'.mapped bn hbn
      · have hip : r.2.1 = ip := by
          have hq' := hm _ ((touches_iff hlen).mpr (.inl rfl))
          rw [blockAt_of_ofBlock hq] at hq'
          exact (hr.same hq').2
        rw [hr'.same fun bn hbn ↦ ?_, hip]
        have hbn' := hm bn ((touches_iff hlen).mpr (.inr hbn))
        rw [hg.blockAt i bn hbn']
        exact hbn'

/-! ## Truncation -/

/-- The places of an inode in the order in which `itrunc` goes through them. -/
def order : List Pointer :=
  (List.ofFn fun k : Fin ndirect ↦ Pointer.direct k.castSucc) ++
    ((List.ofFn fun j : Fin nindirect ↦ Pointer.indirect j) ++ [.last])

theorem mem_order (q : Pointer) : q ∈ order := by
  simp only [order, List.mem_append, List.mem_ofFn, List.mem_singleton]
  cases q with
  | direct k =>
    induction k using Fin.lastCases with
    | last => exact .inr (.inr rfl)
    | cast k => exact .inl ⟨k, rfl⟩
  | indirect j => exact .inr (.inl ⟨j, rfl⟩)

theorem nodup_order : order.Nodup := by
  refine List.nodup_append.mpr ⟨List.nodup_ofFn.mpr ?_, List.nodup_append.mpr
    ⟨List.nodup_ofFn.mpr fun j j' h ↦ Pointer.indirect.inj h, List.nodup_singleton _, ?_⟩, ?_⟩
  · intro k k' h
    exact Fin.castSucc_injective _ (Pointer.direct.inj h)
  · simp [Pointer.last, List.mem_ofFn]
  · simp only [List.mem_ofFn, List.mem_append, List.mem_singleton]
    rintro _ ⟨k, rfl⟩ _ (⟨j, rfl⟩ | rfl) h
    · cases h
    · exact (Fin.castSucc_lt_last k).ne (Pointer.direct.inj h)

theorem addresses_eq (hi : ip.type ≠ 0) :
    d.addresses ip = (order.map fun q ↦ (d.iupdate i ip).stored (i, q)).filter (· ≠ 0) := by
  simp only [addresses, order, List.map_append, List.map_ofFn, List.filter_append,
    Function.comp_def, stored_direct hi, Pointer.last, List.map_singleton]
  congr 1
  by_cases h₀ : ip.indirect = 0
  · have hzero : ∀ j, (d.iupdate i ip).stored (i, .indirect j) = 0 := fun j ↦ by
      rw [stored_iupdate_self, Dinode.pointer, if_pos (.inr h₀)]
    have hlast : ip.addrs (Fin.last ndirect) = 0 := h₀
    simp [h₀, hzero, hlast]
  · have hlast : ip.addrs (Fin.last ndirect) ≠ 0 := h₀
    simp only [if_neg h₀, stored_indirect hi h₀]
    rw [List.filter_singleton, decide_eq_true hlast, cond_true, Dinode.indirect]

theorem mem_addresses (hi : ip.type ≠ 0) :
    b ∈ d.addresses ip ↔ b ≠ 0 ∧ ∃ q, (d.iupdate i ip).stored (i, q) = b := by
  rw [addresses_eq (i := i) hi, List.mem_filter, List.mem_map, decide_eq_true_iff, and_comm]
  exact and_congr_right fun _ ↦ ⟨fun ⟨q, _, hq⟩ ↦ ⟨q, hq⟩, fun ⟨q, hq⟩ ↦ ⟨q, mem_order q, hq⟩⟩

theorem Owned.nodup_addresses (h : (d.iupdate i ip).Owned L) (hi : ip.type ≠ 0) :
    (d.addresses ip).Nodup := by
  rw [addresses_eq (i := i) hi, List.filter_map]
  refine (nodup_order.filter _).map_on fun q hq q' _ heq ↦ ?_
  have hq₀ : (d.iupdate i ip).stored (i, q) ≠ 0 := by simpa using (List.mem_filter.mp hq).2
  exact congrArg Prod.snd (h.owns.inj _ _ hq₀ heq)

def unmark (d : FsDisk n) (bs : List BlockNo) : FsDisk n :=
  { d with bitmap := fun b ↦ d.bitmap b && !bs.contains b }

theorem unmark_bitmap : (d.unmark bs).bitmap b = true ↔ d.bitmap b = true ∧ b ∉ bs := by
  rw [unmark, Bool.and_eq_true, Bool.not_eq_true', ← Bool.not_eq_true, List.contains_iff_mem]

theorem freeAll_eq (hnd : bs.Nodup) (hset : ∀ b ∈ bs, d.bitmap b = true) :
    freeAll d bs = .ok (d.unmark bs) := by
  induction bs generalizing d with
  | nil => simp [freeAll, unmark]
  | cons b bs ih =>
    obtain ⟨hb, hnd⟩ := List.nodup_cons.mp hnd
    have hfree : d.bfree b = .ok (d.mark b false) := by
      rw [bfree, hset b List.mem_cons_self, if_neg (by simp)]
    have hset' : ∀ c ∈ bs, (d.mark b false).bitmap c = true := fun c hc ↦ by
      rw [mark_bitmap, update_of_ne (ne_of_mem_of_not_mem hc hb)]
      exact hset c (List.mem_cons_of_mem _ hc)
    rw [freeAll, hfree]
    refine (ih hnd hset').trans (congrArg Except.ok ?_)
    refine congrArg (FsDisk.mk · d.dinode d.data) (funext fun c ↦ ?_)
    by_cases hc : c = b
    · simp [hc]
    · simp [hc]

/-- The fields that `itrunc` leaves. -/
def truncated (ip : Dinode) : Dinode := { ip with addrs := fun _ ↦ 0, size := 0 }

theorem pointer_of_addrs {data : Disk} (h : ∀ k, ip.addrs k = 0) (q : Pointer) :
    ip.pointer data q = 0 := by
  cases q with
  | direct k => rw [Dinode.pointer, h, ite_self]
  | indirect j => rw [Dinode.pointer, if_pos (.inr (h _))]

/-- **`itrunc` on a consistent disk** does not panic and leaves a consistent disk on which the inode
has no blocks. -/
theorem itrunc_spec (h : (d.iupdate i ip).Owned L) (hi : ip.type ≠ 0) :
    ∃ d', d.itrunc i ip = .ok (d', truncated ip) ∧ d'.Owned L ∧
      d'.dinode = update d.dinode i (truncated ip) ∧
      ∀ j ≠ i, ∀ q, d'.stored (j, q) = d.stored (j, q) := by
  have hmem := @mem_addresses n d i ip
  have hset : ∀ b ∈ d.addresses ip, d.bitmap b = true := by
    intro b hb
    obtain ⟨hb₀, q, rfl⟩ := (hmem hi).mp hb
    exact (h.owns.used_of _ hb₀).2
  have hfree := freeAll_eq (h.nodup_addresses hi) hset
  have hout : ∀ j ≠ i, ∀ q, ((d.unmark (d.addresses ip)).iupdate i (truncated ip)).stored (j, q)
      = d.stored (j, q) := fun j hj q ↦ stored_iupdate_of_ne hj q
  refine ⟨(d.unmark (d.addresses ip)).iupdate i (truncated ip), ?_, ⟨?_, ?_⟩, rfl, hout⟩
  · rw [itrunc, hfree]
    rfl
  · refine h.owns.free (S := fun x ↦ x.1 = i) ?_ ?_ ?_
    · rintro ⟨j, q⟩ hj
      obtain rfl : j = i := hj
      rw [stored_iupdate_self]
      exact pointer_of_addrs (fun _ ↦ rfl) q
    · rintro ⟨j, q⟩ hj
      exact (hout j hj q).trans (stored_iupdate_of_ne hj q).symm
    · intro c
      rw [iupdate_bitmap, unmark_bitmap, hmem hi, iupdate_bitmap, and_assoc]
      refine and_congr_right fun hc ↦ and_congr_right fun _ ↦ ⟨fun hne x hx heq ↦ ?_, ?_⟩
      · obtain rfl : x.1 = i := hx
        exact hne ⟨hc.ne_zero, x.2, heq⟩
      · rintro hne ⟨-, q, hq⟩
        exact hne (i, q) rfl hq
  · intro b hb
    rw [iupdate_bitmap, unmark_bitmap, hmem hi]
    refine ⟨h.reserved b hb, ?_⟩
    rintro ⟨hb₀, q, rfl⟩
    exact absurd (h.owns.used_of _ hb₀).1.1 (not_le.mpr hb)

/-! ## Reading and writing an inode -/

def Grows (ip : Dinode) (off len : Word) : Prop :=
  CanWrite ip off len ∧ 0 < len ∧ ip.size < off + len

instance (ip : Dinode) (off len : Word) : Decidable (Grows ip off len) :=
  inferInstanceAs (Decidable (_ ∧ _))

theorem toNat_add_of_not_lt {len : Word} (h : ¬off + len < off) :
    (off + len).toNat = off.toNat + len.toNat := by
  rw [BitVec.not_lt, BitVec.le_def, BitVec.toNat_add] at h
  rw [BitVec.toNat_add]
  omega

theorem readi_spec {len : Word} (h : d.Owned L) (hi : (d.dinode i).type ≠ 0) (hd : d.Dense i) :
    Outcome (fun r ↦ r.1 = d ∧ r.2.1 = d.dinode i) (· ≠ .freeingFreeBlock)
      (d.readi L (d.dinode i) off len) := by
  unfold readi
  split
  · exact .ok ⟨rfl, rfl⟩
  split
  · exact .ok ⟨rfl, rfl⟩
  next hdev hoff =>
  obtain ⟨hle, hwrap⟩ := not_or.mp hoff
  have hadd := toNat_add_of_not_lt hwrap
  rw [BitVec.not_lt, BitVec.le_def] at hle
  dsimp only
  refine (readLoop_spec (i := i) _ ?_ hi ?_).bind fun r hr ↦ .ok hr
  · rwa [iupdate_self]
  · intro bn hbn
    rw [iupdate_self]
    refine hd bn (hbn.2.1.trans_le ?_)
    split
    · rw [BitVec.toNat_sub_of_le hle]
      omega
    · next hlt =>
      rw [BitVec.not_lt, BitVec.le_def] at hlt
      omega

/-- What `writei` does to a consistent disk. -/
structure Written (L : Layout) (i : Fin n) (d : FsDisk n) (off len : Word)
    (r : FsDisk n × Dinode) : Prop where
  owned : r.1.Owned L
  dinode : r.1.dinode = update d.dinode i r.2
  type : r.2.type = (d.dinode i).type
  keeps : ∀ x, d.stored x ≠ 0 → r.1.stored x = d.stored x
  dense : r.1.Dense i
  same : ¬Grows (d.dinode i) off len → r.2 = d.dinode i

theorem Wrote.same_of_dense {len : Word} {r : FsDisk n × Dinode}
    (hr : Wrote L i d (d.dinode i) off.toNat len.toNat r) (hd : d.Dense i)
    (hadd : (off + len).toNat = off.toNat + len.toNat) (hgrow : ¬(0 < len ∧ r.2.size < off + len)) :
    r.2 = d.dinode i ∧ r.1.iupdate i r.2 = r.1 := by
  have hip : r.2 = d.dinode i := by
    refine hr.same fun bn hbn ↦ ?_
    rw [iupdate_self]
    refine hd bn (hbn.2.1.trans_le ?_)
    have hlt : ¬r.2.size < off + len := fun hlt ↦ hgrow ⟨hbn.2.2, hlt⟩
    rw [BitVec.not_lt, BitVec.le_def, hr.grown.size] at hlt
    omega
  refine ⟨hip, ?_⟩
  rw [hip, ← hr.grown.dinode, iupdate_self]

theorem writei_spec {len : Word} (h : d.Owned L) (hi : (d.dinode i).type ≠ 0) (hd : d.Dense i) :
    Outcome (Written L i d off len) (· ≠ .freeingFreeBlock)
      (d.writei L i (d.dinode i) off len src) := by
  unfold writei
  by_cases hcan : CanWrite (d.dinode i) off len
  · rw [if_pos hcan]
    obtain ⟨hle, hwrap⟩ := not_or.mp hcan.2.1
    have hadd := toNat_add_of_not_lt hwrap
    rw [BitVec.not_lt, BitVec.le_def] at hle
    refine (writeLoop_spec (i := i) (d := d) _ (by rwa [iupdate_self]) hi le_rfl).bind fun r hr ↦ ?_
    have hkeeps := hr.grown.keeps
    rw [iupdate_self] at hkeeps
    have hsize : r.2.size = (d.dinode i).size := hr.grown.size
    by_cases hgrow : 0 < len ∧ r.2.size < off + len
    · have hst :
          (r.1.iupdate i { r.2 with size := off + len }).stored = (r.1.iupdate i r.2).stored :=
        stored_iupdate_congr rfl rfl
      rw [if_pos hgrow]
      refine .ok ⟨hr.grown.owned.congr hst rfl, ?_, hr.grown.type, ?_, ?_, fun hno ↦ ?_⟩
      · rw [iupdate_dinode, hr.grown.dinode]
      · intro x hx
        rw [hst]
        exact hkeeps x hx
      · intro bn hbn
        rw [iupdate_dinode, update_self] at hbn
        have hat := hr.grown.blockAt i bn
        rw [blockAt, hst, ← blockAt]
        rw [iupdate_self] at hat
        -- a block below the old size stays; one above it is among those written
        by_cases hold : bn * bSize < (d.dinode i).size.toNat
        · rw [hat (hd bn hold)]
          exact hd bn hold
        · refine hr.mapped bn ⟨?_, hadd ▸ hbn, hgrow.1⟩
          exact Nat.div_le_of_le_mul (by rw [mul_comm]; omega)
      · exact absurd ⟨hcan, hgrow.1, hsize ▸ hgrow.2⟩ hno
    · obtain ⟨hip, hr₁⟩ := hr.same_of_dense hd hadd hgrow
      rw [if_neg hgrow]
      rw [hr₁] at hkeeps
      refine .ok ⟨hr₁ ▸ hr.grown.owned, ?_, hr.grown.type, hkeeps, ?_, fun _ ↦ hip⟩
      · rw [hip, update_eq_self, hr.grown.dinode]
      · intro bn hbn
        rw [hr.grown.dinode] at hbn
        have hat := hr.grown.blockAt i bn
        rw [iupdate_self, hr₁] at hat
        rw [hat (hd bn hbn)]
        exact hd bn hbn
  · rw [if_neg hcan]
    refine .ok ⟨h, ?_, rfl, fun _ _ ↦ rfl, hd, fun _ ↦ rfl⟩
    rw [update_eq_self]

end FsDisk

end OperatingSystems
