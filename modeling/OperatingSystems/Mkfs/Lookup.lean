import OperatingSystems.Fs.Namei
import OperatingSystems.Mkfs.Image

/-!
# The kernel finds what mkfs has stored

The kernel's `namei` and `readi` on an image of mkfs: every file is found under its name, and its
bytes are those of the file that was given to mkfs. This is so for every image that mkfs comes to
write, also where the size of the root directory has one block too many: the lookup stops before it
gets there.
-/

namespace OperatingSystems

/-! ## Directory entries -/

theorem direntInum_dirent {inum : ℕ} (h : inum < 2 ^ 16) (name : Bytes) :
    FsDisk.direntInum (dirent inum name) = inum := by
  simp only [FsDisk.direntInum, dirent, List.getD_cons_zero, List.getD_cons_succ,
    BitVec.toNat_ofNat]
  omega

theorem cstring_padded (n : ℕ) : ∀ {p : Bytes}, (0 : UInt8) ∉ p →
    cstring n ((List.range n).map fun t ↦ p.getD t 0) = p.take n := by
  induction n with
  | zero => exact fun _ ↦ rfl
  | succ n ih =>
    intro p hp
    rw [List.range_succ_eq_map, List.map_cons, List.map_map, cstring_succ, List.headD_cons,
      List.tail_cons]
    cases p with
    | nil => rfl
    | cons c p =>
      have hc : c ≠ 0 := fun h ↦ hp (h ▸ List.mem_cons_self ..)
      have hrest := ih fun h ↦ hp (List.mem_cons_of_mem c h)
      rw [List.getD_cons_zero, if_neg hc, List.take_succ_cons, ← hrest]
      rfl

theorem cstring_direntName {name : Bytes} (h : (0 : UInt8) ∉ name) (inum : ℕ) :
    cstring dirsiz (FsDisk.direntName (dirent inum name)) = name.take dirsiz := by
  have hname : FsDisk.direntName (dirent inum name) =
      (List.range dirsiz).map fun t ↦ name.getD t 0 := by
    rw [FsDisk.direntName, dirent, List.drop_succ_cons, List.drop_succ_cons, List.drop_zero,
      List.map_map]
    rfl
  rw [hname, cstring_padded dirsiz h]

theorem InputFile.cstr_target (f : InputFile) : (0 : UInt8) ∉ f.target := by
  rw [InputFile.target]
  split
  · exact fun h ↦ f.cstr (List.mem_of_mem_tail h)
  · exact f.cstr

variable {nm : Bytes}

theorem skipelem_slash (h : slash ∉ nm) (hne : nm ≠ []) :
    skipelem (slash :: nm) = some (nm.take dirsiz, []) := by
  have hmem : ∀ c ∈ nm, (c == slash) = false := fun c hc ↦
    beq_eq_false_iff_ne.2 fun heq ↦ h (heq ▸ hc)
  have hall : ∀ c ∈ nm, (c != slash) = true := fun c hc ↦ by
    rw [bne, hmem c hc]
    rfl
  have hdrop : (slash :: nm).dropWhile (· == slash) = nm := by
    rw [List.dropWhile_cons, if_pos (beq_self_eq_true slash)]
    cases nm with
    | nil => rfl
    | cons c nm =>
      have hc : (c == slash) = false := hmem c (List.mem_cons_self ..)
      rw [List.dropWhile_cons, hc]
      rfl
  rw [skipelem, hdrop]
  cases nm with
  | nil => exact absurd rfl hne
  | cons c nm =>
    dsimp only
    rw [List.takeWhile_eq_self_iff.2 hall, List.dropWhile_eq_nil_iff.2 hall]
    rfl

namespace FsDisk

variable {n j : ℕ} {L : Layout} {d : FsDisk n} {dp : Dinode} {es : List (ℕ × Bytes)} {name : Bytes}
  {e : ℕ × Bytes}

/-- The directory has the entries `es`, one behind the other from its start on. -/
structure HasEntries (L : Layout) (d : FsDisk n) (dp : Dinode) (es : List (ℕ × Bytes)) : Prop where
  size : direntSize * es.length ≤ dp.size.toNat
  read : ∀ k e, es[k]? = some e →
    d.readi L dp (BitVec.ofNat 32 (direntSize * k)) (BitVec.ofNat 32 direntSize) =
      .ok (d, dp, some (dirent e.1 e.2))
  inum : ∀ e ∈ es, 0 < e.1 ∧ e.1 < 2 ^ 16
  cstr : ∀ e ∈ es, (0 : UInt8) ∉ e.2

theorem namecmp_dirent (h : (0 : UInt8) ∉ e.2) :
    namecmp name (direntName (dirent e.1 e.2)) = 0 ↔ cstring dirsiz name = e.2.take dirsiz := by
  rw [namecmp, strncmp_eq_zero_iff, cstring_direntName h]

theorem HasEntries.dirlookupLoop_eq (h : HasEntries L d dp es) (hj : es[j]? = some e)
    (hname : cstring dirsiz name = e.2.take dirsiz)
    (hfirst : ∀ k < j, ∀ e', es[k]? = some e' → cstring dirsiz name ≠ e'.2.take dirsiz) (fuel : ℕ) :
    ∀ k, k ≤ j → j < k + fuel →
    dirlookupLoop L name fuel d dp (BitVec.ofNat 32 (direntSize * k)) =
      .ok (d, dp, some e.1) := by
  have hjlen : j < es.length := (List.getElem?_eq_some_iff.1 hj).1
  have hsize := h.size
  induction fuel with
  | zero =>
    intro k hk hlt
    omega
  | succ fuel ih =>
    intro k hk hlt
    have hklen : k < es.length := by omega
    have hek : es[k]? = some es[k] := List.getElem?_eq_getElem hklen
    have hmem : es[k] ∈ es := List.getElem_mem hklen
    obtain ⟨hpos, hmax⟩ := h.inum _ hmem
    have hoff : BitVec.ofNat 32 (direntSize * k) < dp.size := by
      have hmul : direntSize * k < direntSize * es.length :=
        Nat.mul_lt_mul_of_pos_left hklen (by decide)
      rw [BitVec.lt_def, BitVec.toNat_ofNat]
      exact (Nat.mod_le _ _).trans_lt (hmul.trans_le hsize)
    have hlen : (dirent es[k].1 es[k].2).length = direntSize := length_dirent _ _
    rw [dirlookupLoop, if_pos hoff, h.read k _ hek]
    dsimp only [Except.mapError, bind, Except.bind]
    rw [if_neg fun hne ↦ hne hlen, direntInum_dirent hmax, if_neg (by omega)]
    by_cases hkj : k = j
    · obtain rfl : es[k] = e := Option.some.inj (hek.symm.trans (hkj ▸ hj))
      rw [if_pos ((namecmp_dirent (h.cstr _ hmem)).2 hname)]
    · have hnext : BitVec.ofNat 32 (direntSize * k) + BitVec.ofNat 32 direntSize =
          BitVec.ofNat 32 (direntSize * (k + 1)) := by
        rw [← BitVec.ofNat_add, Nat.mul_succ]
      rw [if_neg fun hz ↦ hfirst k (by omega) _ hek ((namecmp_dirent (h.cstr _ hmem)).1 hz), hnext]
      exact ih (k + 1) (by omega) (by omega)

theorem HasEntries.dirlookup_eq (h : HasEntries L d dp es) (htype : dp.type = tDir)
    (hj : es[j]? = some e) (hname : cstring dirsiz name = e.2.take dirsiz)
    (hfirst : ∀ k < j, ∀ e', es[k]? = some e' → cstring dirsiz name ≠ e'.2.take dirsiz) :
    d.dirlookup L dp name = .ok (d, dp, some e.1) := by
  have hjlen : j < es.length := (List.getElem?_eq_some_iff.1 hj).1
  have hfuel : es.length ≤ dp.size.toNat / direntSize :=
    (Nat.le_div_iff_mul_le (by decide)).2 (Nat.mul_comm direntSize _ ▸ h.size)
  rw [dirlookup, if_neg fun hne ↦ hne htype]
  exact h.dirlookupLoop_eq hj hname hfirst _ 0 (Nat.zero_le _) (by omega)

end FsDisk

namespace Mkfs

variable {s s₁ : Mkfs} {files : List InputFile} {f : InputFile} {i : Ino} {e : Content} {k : ℕ}

instance : NeZero nInodes := ⟨Nat.succ_ne_zero 199⟩

/-! ## Reading the image -/

theorem Finished.dinode_type (h : Finished files s₁ s) (hi : vol files i = some e) :
    (s.kernelDisk.dinode i).type = e.type ∧ (s.kernelDisk.dinode i).nlink = 1 := by
  have hold := h.holds.holding i e hi
  by_cases hroot : i = root
  · subst hroot
    rw [kernelDisk_dinode h.wf, h.disk, FsDisk.iupdate_dinode, Function.update_self]
    exact ⟨hold.type, hold.nlink⟩
  · rw [h.dinode_of_ne hroot]
    exact ⟨hold.type, hold.nlink⟩

theorem Finished.le_size (h : Finished files s₁ s) (hi : vol files i = some e) :
    e.bytes.length ≤ (s.kernelDisk.dinode i).size.toNat := by
  by_cases hroot : i = root
  · rw [hroot, vol_root] at hi
    obtain rfl := Option.some.inj hi
    rw [hroot, h.size_root, length_rootEntry]
    simp only [bSize]
    omega
  · rw [h.dinode_of_ne hroot, (h.holds.holding i e hi).size]

theorem Finished.blockAt_kernelDisk (h : Finished files s₁ s) (bn : ℕ) :
    s.kernelDisk.blockAt i bn = s₁.disk.blockAt i bn := by
  rw [FsDisk.blockAt, FsDisk.blockAt, h.stored_kernelDisk]

theorem Finished.byteAt_kernelDisk (h : Finished files s₁ s) (hi : vol files i = some e) {x : ℕ}
    (hx : x < e.bytes.length) : s.kernelDisk.byteAt i x = s₁.disk.byteAt i x := by
  have hself : s₁.disk.iupdate root (s₁.disk.dinode root) = s₁.disk := FsDisk.iupdate_self
  have hne : s.disk.blockAt i (x / bSize) ≠ 0 := by
    rw [FsDisk.blockAt, h.stored_disk]
    exact (h.holds.holding i e hi).blockAt_div_ne hx
  rw [FsDisk.byteAt_congr h.owned (kernelDisk_dinode h.wf) (fun _ hb ↦ kernelDisk_data hb) hne,
    h.disk]
  conv_rhs => rw [← hself]
  refine FsDisk.byteAt_iupdate_congr ?_ ?_ x
  · rfl
  · rfl

/-- **The kernel reads what mkfs has written.** -/
theorem Finished.readi_eq (h : Finished files s₁ s) (hi : vol files i = some e)
    (hdev : e.type ≠ tDev) {off len : Word} (hle : off.toNat + len.toNat ≤ e.bytes.length) :
    s.kernelDisk.readi sb.layout (s.kernelDisk.dinode i) off len = .ok (s.kernelDisk,
      s.kernelDisk.dinode i, some ((e.bytes.drop off.toNat).take len.toNat)) := by
  have hold := h.holds.holding i e hi
  have htype := (h.dinode_type hi).1
  have hbytes : s.kernelDisk.bytes i off.toNat len.toNat =
      s₁.disk.bytes i off.toNat len.toNat := by
    refine List.map_congr_left fun t ht ↦ h.byteAt_kernelDisk hi ?_
    have ht := List.mem_range.1 ht
    omega
  rw [FsDisk.readi_eq (htype ▸ e.allocated) (htype ▸ hdev) (hle.trans (h.le_size hi)), hbytes,
    hold.bytes_eq hle]
  intro bn hbn
  rw [h.blockAt_kernelDisk]
  exact hold.blockAt_ne (hbn.2.1.trans_le hle)

/-! ## The root directory -/

theorem flatMap_dirent_at {es : List (ℕ × Bytes)} : ∀ {k : ℕ} {x : ℕ × Bytes}, es[k]? = some x →
    ((es.flatMap fun x ↦ dirent x.1 x.2).drop (direntSize * k)).take direntSize =
      dirent x.1 x.2 := by
  induction es with
  | nil =>
    intro k x hk
    rw [List.getElem?_nil] at hk
    exact absurd hk.symm (Option.some_ne_none x)
  | cons y es ih =>
    intro k x hk
    have hlen := length_dirent y.1 y.2
    rw [List.flatMap_cons]
    cases k with
    | zero =>
      rw [List.getElem?_cons_zero] at hk
      obtain rfl := Option.some.inj hk
      rw [Nat.mul_zero, List.drop_zero, ← hlen, List.take_left]
    | succ k =>
      rw [List.getElem?_cons_succ] at hk
      rw [Nat.mul_succ, Nat.add_comm, ← List.drop_drop]
      conv_lhs => rw [← hlen, List.drop_left, hlen]
      exact ih hk

theorem mem_entries {x : ℕ × Bytes} (h : x ∈ entries files) :
    0 < x.1 ∧ x.1 < files.length + 2 ∧ (0 : UInt8) ∉ x.2 := by
  rw [entries, List.mem_cons, List.mem_cons] at h
  rcases h with rfl | rfl | h
  · exact ⟨Nat.one_pos, Nat.lt_add_left _ (Nat.lt_succ_self 1), by decide⟩
  · exact ⟨Nat.one_pos, Nat.lt_add_left _ (Nat.lt_succ_self 1), by decide⟩
  · obtain ⟨k, hk, rfl⟩ := List.mem_mapIdx.1 h
    exact ⟨Nat.succ_pos _, Nat.add_lt_add_right hk 2, files[k].cstr_target⟩

theorem Finished.hasEntries (h : Finished files s₁ s) (hn : files.length < nInodes) :
    FsDisk.HasEntries sb.layout s.kernelDisk (s.kernelDisk.dinode root) (entries files) := by
  have hlen : (rootEntry files).bytes.length = direntSize * (entries files).length := by
    rw [length_rootEntry, length_entries]
  have hfits := rootEntry_fits hn
  refine ⟨hlen ▸ h.le_size (vol_root files), fun k x hk ↦ ?_, fun x hx ↦ ?_, fun x hx ↦ ?_⟩
  · have hklt : k < (entries files).length := (List.getElem?_eq_some_iff.1 hk).1
    rw [length_entries] at hklt
    have hoff : (BitVec.ofNat 32 (direntSize * k)).toNat = direntSize * k := by
      rw [BitVec.toNat_ofNat]
      refine Nat.mod_eq_of_lt ?_
      simp only [direntSize, dirsiz, nInodes] at hn ⊢
      omega
    have hsz : (BitVec.ofNat 32 direntSize).toNat = direntSize := by decide
    have hle : (BitVec.ofNat 32 (direntSize * k)).toNat + (BitVec.ofNat 32 direntSize).toNat ≤
        (rootEntry files).bytes.length := by
      rw [hoff, hsz, length_rootEntry, ← Nat.mul_succ]
      exact Nat.mul_le_mul_left _ hklt
    have hdev : tDir ≠ tDev := by decide
    rw [h.readi_eq (vol_root files) hdev hle, hoff, hsz]
    exact congrArg (fun de ↦ Except.ok (_, _, some de)) (flatMap_dirent_at hk)
  · obtain ⟨hpos, hlt, -⟩ := mem_entries hx
    simp only [nInodes] at hn
    exact ⟨hpos, by omega⟩
  · exact (mem_entries hx).2.2

/-- What is asked of the files: their names, cut to what an entry has room for, tell them apart, and
there are inodes and blocks enough. -/
structure Suitable (files : List InputFile) : Prop where
  nonempty : ∀ f ∈ files, f.target.take dirsiz ≠ []
  slashfree : ∀ f ∈ files, slash ∉ f.target.take dirsiz
  distinct : (files.map fun f ↦ f.target.take dirsiz).Nodup
  proper : ∀ f ∈ files, Proper (f.target.take dirsiz)
  fits : ∀ f ∈ files, f.contents.length ≤ maxFile * bSize
  inodes : files.length < nInodes
  blocks : blocksNeeded files ≤ fssize

theorem Suitable.first (h : Suitable files) (hk : files[k]? = some f) :
    (entries files)[k + 2]? = some (k + 2, f.target) ∧ ∀ j < k + 2, ∀ x,
      (entries files)[j]? = some x → f.target.take dirsiz ≠ x.2.take dirsiz := by
  have hmem : f ∈ files := List.mem_of_getElem? hk
  obtain ⟨hdot, hdotdot⟩ := h.proper f hmem
  refine ⟨?_, fun j hj x hx ↦ ?_⟩
  · rw [entries, List.getElem?_cons_succ, List.getElem?_cons_succ, List.getElem?_mapIdx, hk]
    rfl
  · cases j with
    | zero =>
      obtain rfl := Option.some.inj hx
      exact hdot
    | succ j =>
      cases j with
      | zero =>
        obtain rfl := Option.some.inj hx
        exact hdotdot
      | succ j =>
        rw [entries, List.getElem?_cons_succ, List.getElem?_cons_succ, List.getElem?_mapIdx] at hx
        obtain ⟨f', hf', rfl⟩ := Option.map_eq_some_iff.1 hx
        intro heq
        -- two files with one name would be the same file
        have hjk : (files.map fun f ↦ f.target.take dirsiz)[j]? =
            (files.map fun f ↦ f.target.take dirsiz)[k]? := by
          rw [List.getElem?_map, List.getElem?_map, hf', hk]
          exact congrArg some heq.symm
        have hlt : j < (files.map fun f ↦ f.target.take dirsiz).length := by
          rw [List.length_map]
          exact (List.getElem?_eq_some_iff.1 hf').1
        have := (List.getElem?_inj hlt h.distinct).1 hjk
        omega

theorem Finished.namei_eq (h : Finished files s₁ s) (hf : Suitable files) (hk : files[k]? = some f)
    (hi : i.val = k + 1) (hslash : slash ∉ nm) (hnm : nm.take dirsiz = f.target.take dirsiz)
    (cwd : Ino) : s.kernelDisk.namei sb.layout cwd (slash :: nm) = .ok (s.kernelDisk, some i) := by
  have hmem : f ∈ files := List.mem_of_getElem? hk
  have hne : nm ≠ [] := by
    rintro rfl
    exact hf.nonempty f hmem hnm.symm
  obtain ⟨hentry, hfirst⟩ := hf.first hk
  obtain ⟨htype, hnlink⟩ := h.dinode_type (vol_root files)
  have hzero : (0 : UInt8) ∉ nm.take dirsiz := by
    rw [hnm]
    exact fun h₀ ↦ f.cstr_target (List.mem_of_mem_take h₀)
  have hstr : cstring dirsiz (nm.take dirsiz) = f.target.take dirsiz := by
    rw [cstring_of_notMem hzero, List.take_take, Nat.min_self, hnm]
  have hlook := (h.hasEntries hf.inodes).dirlookup_eq htype hentry hstr
    (by rw [hstr]; exact hfirst)
  have hlock : s.kernelDisk.ilock root = .ok (s.kernelDisk.dinode root) := by
    rw [FsDisk.ilock, htype]
    rfl
  have hput : s.kernelDisk.iput root (s.kernelDisk.dinode root) = .ok s.kernelDisk := by
    rw [FsDisk.iput, hnlink]
    rfl
  have hget : FsDisk.iget nInodes (k + 2) = .ok i := by
    have hlt : 0 < k + 2 ∧ k + 2 - 1 < nInodes := ⟨Nat.succ_pos _, by omega⟩
    rw [FsDisk.iget, dif_pos hlt]
    exact congrArg Except.ok (Fin.ext hi.symm)
  have hroot : (if (slash :: nm).head? = some slash then (0 : Ino) else cwd) = root := if_pos rfl
  obtain ⟨m, hm⟩ : ∃ m, (slash :: nm).length = m + 2 :=
    ⟨nm.length - 1, by rw [List.length_cons]; have := List.length_pos_of_ne_nil hne; omega⟩
  rw [FsDisk.namei, hroot, hm, FsDisk.namexLoop, skipelem_slash hslash hne]
  dsimp only
  rw [hlock]
  dsimp only [bind, Except.bind]
  rw [if_neg fun hdir ↦ hdir htype, hlook]
  dsimp only
  rw [hget, hput]
  rfl

/-- **mkfs and the kernel agree on the format.** mkfs comes through where no name has a slash, and
in every image that it writes the kernel finds each file under its name, by a path that is cut to
the same name, and reads back its contents. -/
theorem kernel_reads_main (hf : Suitable files) :
    ((∀ f ∈ files, slash ∉ f.name) → ∃ s, main files = some s) ∧
    ∀ s, main files = some s → ∀ f ∈ files, ∀ nm, slash ∉ nm →
      nm.take dirsiz = f.target.take dirsiz → ∀ cwd, ∃ i : Ino,
        s.kernelDisk.namei (s.img 1).getSb.layout cwd (slash :: nm) =
          .ok (s.kernelDisk, some i) ∧
        (s.kernelDisk.dinode i).type = tFile ∧
        s.kernelDisk.readi (s.img 1).getSb.layout (s.kernelDisk.dinode i) 0
            (s.kernelDisk.dinode i).size =
          .ok (s.kernelDisk, s.kernelDisk.dinode i, some f.contents) := by
  refine ⟨fun hslash ↦ ?_, fun s hs f hmem nm hnm htake cwd ↦ ?_⟩
  · exact main_isSome hf.blocks hf.inodes fun f hmem ↦ ⟨hslash f hmem, hf.fits f hmem⟩
  · obtain ⟨s₁, h⟩ := finished_of_main hf.inodes hs
    obtain ⟨k, hk⟩ := List.mem_iff_getElem?.1 hmem
    have hklt : k < files.length := (List.getElem?_eq_some_iff.1 hk).1
    have hlt : k + 1 < nInodes := Nat.lt_of_le_of_lt hklt hf.inodes
    have hV : vol files ⟨k + 1, hlt⟩ = some (fileEntry f.contents) := by
      rw [vol_of_pos (Nat.succ_ne_zero k), Nat.add_sub_cancel, hk]
      rfl
    have hne : (⟨k + 1, hlt⟩ : Ino) ≠ root := fun heq ↦
      Nat.succ_ne_zero k (congrArg Fin.val heq)
    have hsize : (s.kernelDisk.dinode ⟨k + 1, hlt⟩).size.toNat = f.contents.length := by
      rw [h.dinode_of_ne hne]
      exact (h.holds.holding _ _ hV).size
    have hdev : tFile ≠ tDev := by decide
    rw [h.wf.super, Block.getSb_putSb]
    refine ⟨⟨k + 1, hlt⟩, h.namei_eq hf hk rfl hnm htake cwd, (h.dinode_type hV).1, ?_⟩
    have hle : (0 : Word).toNat + (s.kernelDisk.dinode ⟨k + 1, hlt⟩).size.toNat ≤
        (fileEntry f.contents).bytes.length := by
      rw [hsize]
      exact (Nat.zero_add _).le
    rw [h.readi_eq hV hdev hle, hsize]
    exact congrArg (fun bs ↦ Except.ok (_, _, some bs)) List.take_length

theorem suitable_two_files : Suitable [shFile, readmeFile] where
  nonempty := by decide
  slashfree := by decide
  distinct := by decide
  proper := by decide
  fits := by decide
  inodes := by decide
  blocks := by decide

theorem kernel_reads_main_two_files : ∃ s, main [shFile, readmeFile] = some s ∧
    (∃ i : Ino,
      s.kernelDisk.namei (s.img 1).getSb.layout root [47, 115, 104] = .ok (s.kernelDisk, some i) ∧
      s.kernelDisk.readi (s.img 1).getSb.layout (s.kernelDisk.dinode i) 0
          (s.kernelDisk.dinode i).size =
        .ok (s.kernelDisk, s.kernelDisk.dinode i, some [1, 2, 3])) ∧
    ∃ i : Ino,
      s.kernelDisk.namei (s.img 1).getSb.layout root [47, 82, 69, 65, 68, 77, 69] =
        .ok (s.kernelDisk, some i) ∧
      s.kernelDisk.readi (s.img 1).getSb.layout (s.kernelDisk.dinode i) 0
          (s.kernelDisk.dinode i).size =
        .ok (s.kernelDisk, s.kernelDisk.dinode i, some [4, 5]) := by
  obtain ⟨hexists, hreads⟩ := kernel_reads_main suitable_two_files
  obtain ⟨s, hs⟩ := hexists (by decide)
  obtain ⟨i, hnamei, -, hread⟩ := hreads s hs shFile (by simp) [115, 104] (by decide) (by decide)
    root
  obtain ⟨j, hnamei', -, hread'⟩ := hreads s hs readmeFile (by simp) [82, 69, 65, 68, 77, 69]
    (by decide) (by decide) root
  exact ⟨s, hs, ⟨i, hnamei, hread⟩, j, hnamei', hread'⟩

end Mkfs

end OperatingSystems
