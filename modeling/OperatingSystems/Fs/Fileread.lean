import OperatingSystems.Fs.Filewrite

/-!
# `fileread`

A read from an open file of type `FD_INODE` is one `readi` at `f->off`, under the lock of the inode.
So processes that share a `struct file` are delivered its bytes once and in order.
-/

namespace OperatingSystems

namespace FdInode

variable {n : ℕ} (L : Layout) {i : Fin n} {f : FdInode n} {len : Word}

/-- `fileread` of at most `len` bytes. There are no bytes where it returns -1. -/
def fileread (readable : Bool) (len : Word) :
    StateT (FdInode n) (Except BlockPanic) (Option (List (BitVec 8))) := fun f ↦
  if readable = false then .ok (none, f)
  else do
    let x ← f.disk.readi L f.ip f.off len
    let r : Word := x.2.2.elim (-1) fun bs ↦ BitVec.ofNat 32 bs.length
    .ok (x.2.2, ⟨x.1, x.2.1, if 0 < r.toInt then f.off + r else f.off⟩)

def ahead (f : FdInode n) (i : Fin n) : List (BitVec 8) := (f.disk.contents i).drop f.off.toNat

variable {L}

theorem toNat_off_add (off : Word) (k : ℕ) (hk : off.toNat + k ≤ maxFile * bSize) :
    (if 0 < (BitVec.ofNat 32 k).toInt then off + BitVec.ofNat 32 k else off).toNat
      = off.toNat + k := by
  have hsmall : maxFile * bSize < 2 ^ 31 := by decide
  have hnat : (BitVec.ofNat 32 k).toNat = k := Nat.mod_eq_of_lt (by omega)
  rw [BitVec.toInt_eq_toNat_of_lt (by omega), hnat]
  split_ifs
  · rw [BitVec.toNat_add, hnat]
    omega
  · omega

/-- **One read** returns the next bytes, at most `len`, and moves behind them. -/
theorem Consistent.fileread (h : f.Consistent L i) (hlen : 0 ≤ len.toInt) : ∃ f',
    (fileread L true len).run f = .ok (some ((f.ahead i).take len.toNat), f') ∧
    f'.Consistent L i ∧ f'.ahead i = (f.ahead i).drop len.toNat := by
  obtain ⟨d, ip, off⟩ := f
  obtain ⟨howned, hip, htype, hdev, hdense, hoff⟩ := h
  dsimp only at howned hip htype hdev hdense hoff
  subst hip
  have hmax := hdense.size_le
  rw [← d.length_contents] at hoff hmax
  have hsmall : maxFile * bSize < 2 ^ 31 := by decide
  have hlt := BitVec.toInt_pos_iff.mp hlen
  simp only [ahead]
  set bs := ((d.contents i).drop off.toNat).take len.toNat with hbs
  have hread : FileBytes.readi (d.contents i) off len = some bs := if_neg (by omega)
  have hlength : bs.length = min len.toNat ((d.contents i).length - off.toNat) := by
    rw [hbs, List.length_take, List.length_drop]
  have hend := toNat_off_add off bs.length (by omega)
  rw [StateT.run, FdInode.fileread, if_neg (by decide), FsDisk.readi_contents htype hdev hdense,
    hread, ok_bind]
  refine ⟨_, rfl, ⟨howned, rfl, htype, hdev, hdense, hend.trans_le ?_⟩, ?_⟩
  · rw [← d.length_contents]
    omega
  · refine (congrArg (List.drop · (d.contents i)) hend).trans ?_
    rw [← List.drop_drop]
    exact (congrArg (List.drop bs.length) (List.take_append_drop len.toNat _).symm).trans
      List.drop_left

theorem Consistent.mapM_fileread (lens : List Word) (hlens : ∀ len ∈ lens, 0 ≤ len.toInt)
    (h : f.Consistent L i) : ∃ (rs : List (List (BitVec 8))) (f' : FdInode n),
      (lens.mapM (FdInode.fileread L true)).run f = .ok (rs.map some, f') ∧
      rs.flatten = (f.ahead i).take (lens.foldr (fun len t ↦ len.toNat + t) 0) := by
  induction lens generalizing f with
  | nil => exact ⟨[], f, rfl, List.take_zero.symm⟩
  | cons len lens ih =>
    obtain ⟨f₁, hread, h₁, hahead⟩ := h.fileread (hlens len List.mem_cons_self)
    obtain ⟨rs, f', hreads, hrs⟩ := ih (fun x hx ↦ hlens x (List.mem_cons_of_mem _ hx)) h₁
    refine ⟨(f.ahead i).take len.toNat :: rs, f', ?_, ?_⟩
    · rw [List.mapM_cons, StateT.run_bind, hread, ok_bind, StateT.run_bind, hreads, ok_bind]
      rfl
    · rw [List.flatten_cons, hrs, hahead, List.foldr_cons, List.take_add]

/-- **What is written is read back.** Where `filewrite` has the room to write `buf`, reads of any
sizes from the same offset, through another open file, deliver `buf` and then what was behind it. -/
theorem fileread_of_filewrite (h : f.Consistent L i) (buf : List (BitVec 8))
    (hle : f.off.toNat + buf.length ≤ maxFile * bSize)
    (hroom : f.disk.HasRoom L i f.off.toNat buf.length) (lens : List Word)
    (hlens : ∀ len ∈ lens, 0 ≤ len.toInt) :
    ∃ f', f.filewrite L i true buf = .ok (BitVec.ofNat 32 buf.length, f') ∧
    ∃ (rs : List (List (BitVec 8))) (f'' : FdInode n),
      (lens.mapM (fileread L true)).run { f' with off := f.off } = .ok (rs.map some, f'') ∧
      rs.flatten = (buf ++ (f.ahead i).drop buf.length).take
        (lens.foldr (fun len t ↦ len.toNat + t) 0) := by
  have hall : accepted f.off.toNat buf.length = buf.length := if_pos hle
  obtain ⟨f', hloop, hadv⟩ := h.exists_writeLoop (hall.symm ▸ hroom)
  rw [hall, List.take_length] at hadv
  rw [hall, List.drop_length] at hloop
  have hback : ({ f' with off := f.off } : FdInode n).Consistent L i :=
    { hadv.consistent with
      off_le := (Nat.le_add_right _ _).trans (hadv.off ▸ hadv.consistent.off_le) }
  obtain ⟨rs, f'', hreads, hrs⟩ := hback.mapM_fileread lens hlens
  refine ⟨f', ?_, rs, f'', hreads, hrs.trans ?_⟩
  · rw [filewrite, if_neg (by decide), hloop, ok_bind, if_pos rfl]
  · simp only [ahead, hadv.contents, FileBytes.splice, List.append_assoc, List.drop_drop,
      List.drop_left' (List.length_take_of_le h.off_le_length)]

/-- Two bytes are written and read one by one. -/
theorem fileread_of_filewrite_two : ∃ f',
    emptyFd.filewrite Icache.smallLayout 0 true [7, 8] = .ok (2, f') ∧
    ∃ (rs : List (List (BitVec 8))) (f'' : FdInode 1),
      ([1, 1].mapM (fileread Icache.smallLayout true)).run { f' with off := 0 }
        = .ok (rs.map some, f'') ∧ rs.flatten = [7, 8] := by
  obtain ⟨f', hwrite, rs, f'', hreads, hrs⟩ := fileread_of_filewrite
    (consistent_emptyFd (k := 2)) [7, 8] (by decide) (by decide +kernel) [1, 1] (by simp)
  exact ⟨f', hwrite, rs, f'', hreads, hrs⟩

end FdInode

end OperatingSystems
