import OperatingSystems.Fs.Writei

/-!
# `filewrite`

A write to an open file of type `FD_INODE` is cut into transactions of a few blocks. Each of them
locks the inode, writes at `f->off` and moves it. The loop ends early where `writei` refuses the
bytes of a transaction, which it does when they would end behind the largest file.
-/

namespace OperatingSystems

/-- `max` in `filewrite`: the bytes of one transaction. -/
def maxWrite : ℕ := (maxOpBlocks - 1 - 1 - 2) / 2 * 512

/-- The panics that end `filewrite`. -/
inductive FilePanic
  | block (e : BlockPanic)
  /-- `panic("short filewrite")` -/
  | shortFilewrite
  deriving DecidableEq, Repr

/-- An open file of type `FD_INODE` with what is behind it: the disk, the cached fields of the
inode, and `f->off`. -/
structure FdInode (n : ℕ) where
  disk : FsDisk n
  ip : Dinode
  off : Word

namespace FdInode

variable {n off len : ℕ} (L : Layout) (i : Fin n)

/-- What `filewrite` does while it holds the lock of the inode: write `s` at `f->off`. The result is
what `writei` returns. -/
def writeLocked (s : List (BitVec 8)) (f : FdInode n) : Except BlockPanic (Word × FdInode n) := do
  let x ← f.disk.writeiRet L i f.ip f.off (BitVec.ofNat 32 s.length) (FsDisk.source s)
  .ok (x.2.2, ⟨x.1, x.2.1, if 0 < x.2.2.toInt then f.off + x.2.2 else f.off⟩)

/-- The loop of `filewrite` with the bytes `buf` to go. The result is what was not written. Every
round but the last one takes at least one byte. -/
def writeLoop :
    ℕ → List (BitVec 8) → FdInode n → Except FilePanic (List (BitVec 8) × FdInode n)
  | 0, buf, f => .ok (buf, f)
  | fuel + 1, buf, f =>
    if buf = [] then .ok (buf, f)
    else
      let s := buf.take maxWrite
      match f.writeLocked L i s with
      | .error e => .error (.block e)
      | .ok (r, f) =>
        if r.toInt < 0 then .ok (buf, f)
        else if r ≠ BitVec.ofNat 32 s.length then .error .shortFilewrite
        else writeLoop fuel (buf.drop r.toNat) f

def filewrite (writable : Bool) (buf : List (BitVec 8)) (f : FdInode n) :
    Except FilePanic (Word × FdInode n) :=
  if writable = false then .ok (-1, f)
  else do
    let x ← writeLoop L i buf.length buf f
    .ok (if x.1 = [] then BitVec.ofNat 32 buf.length else -1, x.2)

variable {L i} {f f' : FdInode n} {s buf : List (BitVec 8)}

/-- A file on a consistent disk whose inode has no holes, at an offset that is not behind the
end. -/
structure Consistent (L : Layout) (i : Fin n) (f : FdInode n) : Prop where
  owned : f.disk.Owned L
  ip : f.ip = f.disk.dinode i
  type : f.ip.type ≠ 0
  notDev : f.ip.type ≠ tDev
  dense : f.disk.Dense i
  off_le : f.off.toNat ≤ f.ip.size.toNat

/-- The bytes `s` have been written at the offset of `f`. -/
structure Advanced (L : Layout) (i : Fin n) (f : FdInode n) (s : List (BitVec 8)) (f' : FdInode n) :
    Prop where
  consistent : f'.Consistent L i
  off : f'.off.toNat = f.off.toNat + s.length
  contents : f'.disk.contents i = FileBytes.splice (f.disk.contents i) f.off.toNat s
  leaves : ∀ j, j ≠ i → FsDisk.Leaves j f.disk f'.disk
  room : ∀ k, f.disk.HasRoom L i f.off.toNat (s.length + k) →
    f'.disk.HasRoom L i (f.off.toNat + s.length) k

theorem Consistent.off_le_length (h : f.Consistent L i) :
    f.off.toNat ≤ (f.disk.contents i).length := by
  rw [FsDisk.length_contents, ← h.ip]
  exact h.off_le

theorem Consistent.off_le_max (h : f.Consistent L i) : f.off.toNat ≤ maxFile * bSize :=
  h.off_le.trans (h.ip ▸ h.dense.size_le)

theorem toNat_ofNat_length (hs : s.length ≤ maxWrite) :
    (BitVec.ofNat 32 s.length).toNat = s.length :=
  Nat.mod_eq_of_lt (hs.trans_lt (by decide))

theorem toInt_ofNat_length (hs : s.length ≤ maxWrite) :
    (BitVec.ofNat 32 s.length).toInt = s.length := by
  have hle := hs.trans (show maxWrite ≤ 1536 by decide)
  rw [BitVec.toInt_eq_toNat_of_lt, toNat_ofNat_length hs]
  rw [toNat_ofNat_length hs]
  omega

/-- **One transaction** is refused because it ends behind the largest file, it is done, or there is
no room for it. -/
theorem Consistent.writeLocked (h : f.Consistent L i) (hs : s.length ≤ maxWrite) :
    Outcome (fun x ↦ maxFile * bSize < f.off.toNat + s.length ∧ x = (-1, f) ∨
        f.off.toNat + s.length ≤ maxFile * bSize ∧ x.1 = BitVec.ofNat 32 s.length ∧
          Advanced L i f s x.2)
      (fun _ ↦ f.off.toNat + s.length ≤ maxFile * bSize ∧
        ¬f.disk.HasRoom L i f.off.toNat s.length)
      (f.writeLocked L i s) := by
  obtain ⟨d, ip, off⟩ := f
  obtain ⟨howned, hip, htype, hdev, hdense, hoff⟩ := h
  dsimp only at howned hip htype hdev hdense hoff
  subst hip
  have hlen := toNat_ofNat_length hs
  have hmax := hdense.size_le
  have hcan : FsDisk.CanWrite (d.dinode i) off (BitVec.ofNat 32 s.length) ↔
      off.toNat + s.length ≤ maxFile * bSize := by
    have hsmall : maxFile * bSize < 2 ^ 32 := by decide
    rw [FsDisk.canWrite_iff hdev, hlen, FsDisk.length_contents]
    omega
  have hcases := FsDisk.writeiRet_cases off howned htype hdense hlen.symm
  rw [hcan, hlen] at hcases
  refine (hcases.bind fun x hx ↦ .ok ?_)
  rcases hx with ⟨hbad, rfl⟩ | ⟨hgood, heq, hrep⟩
  · exact .inl ⟨not_le.mp hbad, rfl⟩
  · obtain ⟨d', x⟩ := x
    obtain rfl : x = (d'.dinode i, BitVec.ofNat 32 s.length) := heq
    have hadvance : (if 0 < (BitVec.ofNat 32 s.length).toInt then off + BitVec.ofNat 32 s.length
        else off).toNat = off.toNat + s.length := by
      have hsmall : maxFile * bSize < 2 ^ 32 := by decide
      rw [toInt_ofNat_length hs]
      split
      · rw [BitVec.toNat_add, hlen, Nat.mod_eq_of_lt (hgood.trans_lt hsmall)]
      · omega
    have hsize : (d'.dinode i).size.toNat = max (d.dinode i).size.toNat (off.toNat + s.length) := by
      rw [← FsDisk.length_contents, hrep.contents, FileBytes.length_splice, FsDisk.length_contents]
      rw [FsDisk.length_contents]
      exact hoff
    refine .inr ⟨hgood, rfl, ⟨hrep.owned, rfl, ?_, ?_, hrep.dense, ?_⟩, hadvance, hrep.contents,
      hrep.leaves, hrep.room⟩
    · exact hrep.type ▸ htype
    · exact hrep.type ▸ hdev
    · dsimp only
      rw [hadvance, hsize]
      exact le_max_right _ _

/-! ## The whole loop -/

theorem Consistent.advanced_nil (h : f.Consistent L i) : Advanced L i f [] f where
  consistent := h
  off := rfl
  contents := (FileBytes.splice_nil _ _).symm
  leaves _ _ := ⟨rfl, fun _ ↦ rfl, fun _ _ ↦ rfl⟩
  room k hk := by rwa [List.length_nil, Nat.zero_add] at hk

theorem Advanced.trans {f'' : FdInode n} {s' : List (BitVec 8)}
    (hle : f.off.toNat ≤ (f.disk.contents i).length)
    (h : Advanced L i f s f') (h' : Advanced L i f' s' f'') : Advanced L i f (s ++ s') f'' where
  consistent := h'.consistent
  off := by
    rw [h'.off, h.off, List.length_append, Nat.add_assoc]
  contents := by
    rw [h'.contents, h.contents, h.off, FileBytes.splice_splice hle]
  leaves j hj := (h.leaves j hj).trans (h'.leaves j hj)
  room k hk := by
    rw [List.length_append, Nat.add_assoc] at hk
    have hroom := h'.room k (h.off ▸ h.room _ hk)
    rwa [h.off, Nat.add_assoc, ← List.length_append] at hroom

/-- The number of bytes that the loop writes: all of them, or as many transactions as end before the
end of the largest file. -/
def accepted (off len : ℕ) : ℕ :=
  if off + len ≤ maxFile * bSize then len else (maxFile * bSize - off) / maxWrite * maxWrite

theorem accepted_of_lt (h : maxFile * bSize < off + min maxWrite len) : accepted off len = 0 := by
  have hpos : 0 < maxWrite := by decide
  rw [accepted, if_neg (by omega), Nat.div_eq_of_lt (by omega), Nat.zero_mul]

theorem accepted_add (h : off + min maxWrite len ≤ maxFile * bSize) :
    accepted off len = min maxWrite len + accepted (off + min maxWrite len)
      (len - min maxWrite len) := by
  rw [accepted, accepted]
  have hwhole : maxFile * bSize < off + len → min maxWrite len = maxWrite := by omega
  by_cases hle : off + len ≤ maxFile * bSize
  · rw [if_pos hle, if_pos (by omega)]
    omega
  · have hmin := hwhole (not_le.mp hle)
    rw [if_neg hle, if_neg (by omega), hmin]
    have hsplit : maxFile * bSize - off = maxFile * bSize - (off + maxWrite) + maxWrite := by omega
    rw [hsplit, Nat.add_div_right _ (by decide), Nat.succ_mul]
    omega

theorem Consistent.writeLoop (fuel : ℕ) : ∀ {f : FdInode n} (buf : List (BitVec 8)),
    f.Consistent L i → buf.length ≤ fuel →
    Outcome (fun x ↦ x.1 = buf.drop (accepted f.off.toNat buf.length) ∧
        Advanced L i f (buf.take (accepted f.off.toNat buf.length)) x.2)
      (fun e ↦ (∃ b, e = .block b) ∧
        ¬f.disk.HasRoom L i f.off.toNat (accepted f.off.toNat buf.length))
      (FdInode.writeLoop L i fuel buf f) := by
  have hnil : ∀ {f : FdInode n}, f.Consistent L i →
      Outcome (fun x ↦ x.1 = ([] : List (BitVec 8)).drop (accepted f.off.toNat 0) ∧
        Advanced L i f (([] : List (BitVec 8)).take (accepted f.off.toNat 0)) x.2)
      (fun e ↦ (∃ b, e = FilePanic.block b) ∧
        ¬f.disk.HasRoom L i f.off.toNat (accepted f.off.toNat 0)) (.ok ([], f)) := fun h ↦ by
    rw [List.drop_nil, List.take_nil]
    exact .ok ⟨rfl, h.advanced_nil⟩
  induction fuel with
  | zero =>
    intro f buf h hf
    obtain rfl := List.length_eq_zero_iff.mp (Nat.le_zero.mp hf)
    exact hnil h
  | succ fuel ih =>
    intro f buf h hf
    rw [FdInode.writeLoop]
    by_cases hbuf : buf = []
    · subst hbuf
      rw [if_pos rfl]
      exact hnil h
    rw [if_neg hbuf]
    have hpos : 0 < buf.length := List.length_pos_iff.mpr hbuf
    have htake : (buf.take maxWrite).length = min maxWrite buf.length := List.length_take
    have hs : (buf.take maxWrite).length ≤ maxWrite := htake ▸ min_le_left _ _
    have hlocked := h.writeLocked hs
    dsimp only
    cases hx : f.writeLocked L i (buf.take maxWrite) with
    | error e =>
      obtain ⟨hgood, hroom⟩ := hlocked.of_error hx
      rw [htake] at hgood hroom
      refine .error ⟨⟨e, rfl⟩, fun hroom' ↦ hroom (hroom'.mono ?_)⟩
      rw [accepted_add hgood]
      exact Nat.le_add_right _ _
    | ok x =>
      obtain ⟨r, f'⟩ := x
      dsimp only
      rcases hlocked.of_ok hx with ⟨hbad, heq⟩ | ⟨hgood, hr, hadv⟩
      · cases heq
        rw [htake] at hbad
        rw [if_pos (by decide), accepted_of_lt hbad, List.drop_zero, List.take_zero]
        exact .ok ⟨rfl, h.advanced_nil⟩
      · dsimp only at hr hadv
        subst hr
        rw [htake] at hgood
        have hlen := toNat_ofNat_length hs
        rw [toInt_ofNat_length hs, if_neg (by omega), if_neg (not_not.mpr rfl), hlen]
        have hdrop : (buf.drop (buf.take maxWrite).length).length =
            buf.length - min maxWrite buf.length := by
          rw [List.length_drop, htake]
        have hone : 0 < maxWrite := by decide
        have hrest := ih (buf.drop (buf.take maxWrite).length) hadv.consistent (by omega)
        rw [hadv.off, hdrop, htake] at hrest
        rw [accepted_add hgood, htake]
        refine (hrest.imp fun x hx ↦ ?_).imp_error fun e he ↦ ?_
        · refine ⟨hx.1.trans List.drop_drop, ?_⟩
          rw [List.take_add]
          have hall := hadv.trans h.off_le_length hx.2
          rwa [List.take_eq_take_min] at hall
        · refine ⟨he.1, fun hroom ↦ he.2 ?_⟩
          have := hadv.room _ (htake ▸ hroom)
          rwa [htake] at this

theorem Consistent.exists_writeLoop (h : f.Consistent L i)
    (hroom : f.disk.HasRoom L i f.off.toNat (accepted f.off.toNat buf.length)) : ∃ f',
      FdInode.writeLoop L i buf.length buf f
        = .ok (buf.drop (accepted f.off.toNat buf.length), f') ∧
      Advanced L i f (buf.take (accepted f.off.toNat buf.length)) f' := by
  have hloop := h.writeLoop buf.length buf le_rfl
  cases hx : FdInode.writeLoop L i buf.length buf f with
  | error e => exact absurd hroom (hloop.of_error hx).2
  | ok x =>
    obtain ⟨hrest, hadv⟩ := hloop.of_ok hx
    refine ⟨x.2, ?_, hadv⟩
    rw [← hrest]

theorem Advanced.off_eq (h : Advanced L i f s f') : f'.off = f.off + BitVec.ofNat 32 s.length := by
  apply BitVec.eq_of_toNat_eq
  have hlt := f'.off.isLt
  rw [h.off] at hlt
  rw [h.off, BitVec.toNat_add, BitVec.toNat_ofNat]
  omega

/-- **`filewrite` is one write**, as far as it goes. With room on the disk it writes everything, if
that does not end behind the largest file, and otherwise the longest part of whole transactions that
does not; and never is a write short. -/
theorem filewrite_eq_writei (h : f.Consistent L i) (buf : List (BitVec 8)) :
    f.filewrite L i true buf ≠ .error .shortFilewrite ∧
    (f.off.toNat + buf.length ≤ maxFile * bSize → f.disk.HasRoom L i f.off.toNat buf.length →
      ∃ f' d', f.filewrite L i true buf = .ok (BitVec.ofNat 32 buf.length, f') ∧
        f.disk.writeiRet L i f.ip f.off (BitVec.ofNat 32 buf.length) (FsDisk.source buf)
          = .ok (d', d'.dinode i, BitVec.ofNat 32 buf.length) ∧
        f'.disk.contents i = d'.contents i ∧ f'.off = f.off + BitVec.ofNat 32 buf.length) ∧
    (maxFile * bSize < f.off.toNat + buf.length →
      f.disk.HasRoom L i f.off.toNat ((maxFile * bSize - f.off.toNat) / maxWrite * maxWrite) →
      ∃ f', f.filewrite L i true buf = .ok (-1, f') ∧
        f'.disk.contents i = FileBytes.splice (f.disk.contents i) f.off.toNat
          (buf.take ((maxFile * bSize - f.off.toNat) / maxWrite * maxWrite)) ∧
        f'.off =
          f.off + BitVec.ofNat 32 ((maxFile * bSize - f.off.toNat) / maxWrite * maxWrite)) := by
  have hrun : ∀ {f' : FdInode n} {rest},
      FdInode.writeLoop L i buf.length buf f = .ok (rest, f') → f.filewrite L i true buf
        = .ok (if rest = [] then BitVec.ofNat 32 buf.length else -1, f') := fun hloop ↦ by
    rw [filewrite, if_neg (by decide), hloop, ok_bind]
  refine ⟨fun herr ↦ ?_, fun hle hroom ↦ ?_, fun hlt hroom ↦ ?_⟩
  · rw [filewrite, if_neg (by decide)] at herr
    rcases bind_eq_error_iff.mp herr with hloop | ⟨x, -, hx⟩
    · obtain ⟨⟨b, hb⟩, -⟩ := (h.writeLoop buf.length buf le_rfl).of_error hloop
      cases hb
    · cases hx
  · have hall : accepted f.off.toNat buf.length = buf.length := if_pos hle
    obtain ⟨f', hloop, hadv⟩ := h.exists_writeLoop (hall.symm ▸ hroom)
    rw [hall, List.take_length] at hadv
    rw [hall, List.drop_length] at hloop
    -- the same bytes in one write
    have hsmall : maxFile * bSize < 2 ^ 32 := by decide
    have hlen : buf.length = (BitVec.ofNat 32 buf.length).toNat :=
      (Nat.mod_eq_of_lt (by omega)).symm
    have hcan : FsDisk.CanWrite f.ip f.off (BitVec.ofNat 32 buf.length) := by
      have hoff := h.off_le_length
      rw [h.ip, FsDisk.canWrite_iff (h.ip ▸ h.notDev), ← hlen]
      omega
    have hcases := FsDisk.writeiRet_cases f.off h.owned (h.ip ▸ h.type) h.dense hlen
    rw [← h.ip, ← hlen] at hcases
    cases hret : f.disk.writeiRet L i f.ip f.off (BitVec.ofNat 32 buf.length)
        (FsDisk.source buf) with
    | error e => exact absurd hroom (hcases.of_error hret).2
    | ok x =>
      obtain ⟨-, heq, hrep⟩ := (hcases.of_ok hret).resolve_left fun hno ↦ hno.1 hcan
      refine ⟨f', x.1, (hrun hloop).trans ?_, ?_, ?_, hadv.off_eq⟩
      · rw [if_pos rfl]
      · rw [← heq]
      · rw [hadv.contents, hrep.contents]
  · have hpart : accepted f.off.toNat buf.length
        = (maxFile * bSize - f.off.toNat) / maxWrite * maxWrite := if_neg (not_le.mpr hlt)
    have hle := Nat.div_mul_le_self (maxFile * bSize - f.off.toNat) maxWrite
    have hoff := h.off_le_max
    obtain ⟨f', hloop, hadv⟩ := h.exists_writeLoop (hpart.symm ▸ hroom)
    rw [hpart] at hloop hadv
    refine ⟨f', (hrun hloop).trans ?_, hadv.contents, ?_⟩
    · rw [if_neg]
      rw [List.drop_eq_nil_iff]
      omega
    · rw [hadv.off_eq, List.length_take, min_eq_left (by omega)]

open Icache

def emptyFd : FdInode 1 := ⟨fileImage 1 0, (fileImage 1 0).dinode 0, 0⟩

theorem consistent_emptyFd {k : Fin 5} : emptyFd.Consistent (layoutOf k) 0 where
  owned := owned_fileImage 1 0
  ip := rfl
  type := by decide
  notDev := by decide
  dense _ hbn := absurd hbn (Nat.not_lt_zero _)
  off_le := le_rfl

/-- Two transactions. -/
theorem filewrite_eq_writei_emptyFd : ∃ (buf : List (BitVec 8)) (f' : FdInode 1),
    buf.length = maxWrite + 1 ∧ f'.off = BitVec.ofNat 32 (maxWrite + 1) ∧
      emptyFd.filewrite (layoutOf 4) 0 true buf = .ok (BitVec.ofNat 32 (maxWrite + 1), f') := by
  obtain ⟨-, hall, -⟩ := filewrite_eq_writei (consistent_emptyFd (k := 4))
    (List.replicate (maxWrite + 1) 7)
  rw [List.length_replicate] at hall
  obtain ⟨f', -, hret, -, -, hoff⟩ := hall (by decide) (by decide +kernel)
  exact ⟨_, f', List.length_replicate, hoff.trans (BitVec.zero_add _), hret⟩

/-- There is no room for a third block: the kernel panics, and nothing is returned. -/
theorem filewrite_outOfBlocks : ∃ buf : List (BitVec 8),
    emptyFd.Consistent smallLayout 0 ∧ emptyFd.off.toNat + buf.length ≤ maxFile * bSize ∧
    emptyFd.filewrite smallLayout 0 true buf = .error (.block .outOfBlocks) := by
  refine ⟨List.replicate 1025 0, consistent_emptyFd, ?_, ?_⟩
  · rw [List.length_replicate]
    decide
  · have hrun : (emptyFd.filewrite smallLayout 0 true (List.replicate 1025 0)).map (fun _ ↦ ())
        = .error (.block .outOfBlocks) := by
      decide +kernel
    cases hwrite : emptyFd.filewrite smallLayout 0 true (List.replicate 1025 0) with
    | ok x =>
      rw [hwrite] at hrun
      cases hrun
    | error e =>
      rw [hwrite] at hrun
      exact congrArg _ (Except.error.inj hrun)

end FdInode

end OperatingSystems
