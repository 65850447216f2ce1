import OperatingSystems.Mkfs.Volume

/-!
# The volume of a list of files

Which volume mkfs makes from its arguments: the root directory in inode 1, with an entry for each
file behind `"."` and `".."`, and the contents of the files in the inodes behind it. `main` goes
through if the names have no slash, no file is too large and there are inodes and blocks enough, and
the blocks needed can be counted beforehand.
-/

namespace OperatingSystems

open Function

namespace Mkfs

variable {s s' : Mkfs} {i : Ino} {e : Content} {V : Volume} {P : List (ℕ × Pointer)}
  {files : List InputFile} {f : InputFile} {q : Pointer}

def root : Ino := ⟨0, Nat.succ_pos 199⟩

def entries (files : List InputFile) : List (ℕ × Bytes) :=
  (rootino, dot) :: (rootino, dotdot) :: files.mapIdx fun k f ↦ (k + 2, f.target)

def rootEntry (files : List InputFile) : Content where
  type := tDir
  bytes := (entries files).flatMap fun x ↦ dirent x.1 x.2
  allocated := by decide

def fileEntry (bytes : List (BitVec 8)) : Content where
  type := tFile
  bytes := bytes
  allocated := by decide

def vol (files : List InputFile) : Volume := fun i ↦
  if i.val = 0 then some (rootEntry files)
  else files[i.val - 1]?.map fun f ↦ fileEntry f.contents

theorem length_entries : (entries files).length = files.length + 2 := by
  rw [entries, List.length_cons, List.length_cons, List.length_mapIdx]

theorem length_rootEntry : (rootEntry files).bytes.length = direntSize * (files.length + 2) := by
  have hconst : ∀ l : List (ℕ × Bytes),
      (l.flatMap fun x ↦ dirent x.1 x.2).length = direntSize * l.length := by
    intro l
    induction l with
    | nil => rfl
    | cons x l ih =>
      rw [List.flatMap_cons, List.length_append, length_dirent, ih, List.length_cons, Nat.mul_succ,
        Nat.add_comm]
  exact (hconst _).trans (congrArg _ length_entries)

theorem entries_append (f : InputFile) :
    entries (files ++ [f]) = entries files ++ [(files.length + 2, f.target)] := by
  rw [entries, List.mapIdx_concat]
  rfl

theorem rootEntry_append (f : InputFile) : rootEntry (files ++ [f]) =
    (rootEntry files).append (dirent (files.length + 2) f.target) := by
  rw [Content.append, rootEntry, rootEntry]
  congr 1
  rw [entries_append, List.flatMap_append, List.flatMap_singleton]

theorem vol_root (files : List InputFile) : vol files root = some (rootEntry files) := rfl

theorem vol_of_pos (hi : i.val ≠ 0) :
    vol files i = files[i.val - 1]?.map fun f ↦ fileEntry f.contents := if_neg hi

theorem vol_append (f : InputFile) (hi : i.val = files.length + 1) {e : Content} :
    update (update (update (vol files) i (some e)) root
      (some (rootEntry (files ++ [f])))) i (some (fileEntry f.contents)) = vol (files ++ [f]) := by
  funext j
  by_cases hji : j = i
  · subst hji
    have hj : j.val - 1 = files.length := by omega
    rw [update_self, vol_of_pos (by omega), hj, List.getElem?_concat_length]
    rfl
  · rw [update_of_ne hji]
    by_cases hj₀ : j = root
    · rw [hj₀, update_self, vol_root]
    · have hj : j.val ≠ 0 := fun h ↦ hj₀ (Fin.ext h)
      have hne : j.val ≠ i.val := fun h ↦ hji (Fin.ext h)
      rw [update_of_ne hj₀, update_of_ne hji, vol_of_pos hj, vol_of_pos hj]
      by_cases hlt : j.val - 1 < files.length
      · rw [List.getElem?_append_left hlt]
      · rw [List.getElem?_eq_none (by omega), List.getElem?_eq_none]
        rw [List.length_append, List.length_singleton]
        omega

/-! ## The steps of the main program -/

theorem start_eq :
    start = ⟨update (fun _ _ ↦ 0) 1 (Block.putSb sb), fssize, 1, nMeta⟩ := by
  -- the sectors are written in order, each with zeroes
  have hzero : ∀ k ≤ fssize, (List.range k).foldl
      (fun (s : Mkfs) i ↦ s.wsect (BitVec.ofNat 32 i) fun _ ↦ 0)
      (⟨fun _ _ ↦ 0, 0, 1, nMeta⟩ : Mkfs) = ⟨fun _ _ ↦ 0, k, 1, nMeta⟩ := by
    intro k
    induction k with
    | zero => exact fun _ ↦ rfl
    | succ k ih =>
      intro hk
      have hk' : (BitVec.ofNat 32 k).toNat = k := by
        simp only [fssize] at hk
        rw [BitVec.toNat_ofNat, Nat.mod_eq_of_lt (by omega)]
      have hsec : sector (BitVec.ofNat 32 k) = k := by
        rw [sector_of_le (by omega), hk']
      rw [List.range_succ, List.foldl_append, ih (by omega), List.foldl_cons, List.foldl_nil,
        wsect, hsec]
      congr 1
      · exact update_eq_self k fun _ _ ↦ 0
      · exact max_eq_right (Nat.le_succ k)
  have hone : sector 1 = 1 := sector_of_le (b := 1) (by decide)
  rw [start, hzero fssize le_rfl, wsect, hone]
  dsimp only
  congr 1

theorem getDinode_zero (k : ℕ) : Block.getDinode (fun _ ↦ 0) k = Dinode.zero := by
  have hword : ∀ w, Block.word (fun _ ↦ 0) w = 0 := fun w ↦ by
    rw [Block.word]
    split
    · rfl
    · rfl
  simp only [Block.getDinode, hword, Dinode.zero]
  rfl

theorem holds_empty (himg : ∀ x, x ≠ 1 → s.img x = fun _ ↦ 0) (hone : s.img 1 = Block.putSb sb)
    (hlen : s.len = fssize) (hfree : s.freeblock = nMeta) : Holds s fun _ ↦ none := by
  have hmeta := nMeta_lt
  have hdinode : ∀ i, s.disk.dinode i = Dinode.zero := fun i ↦ by
    have hgt := (sector_iblock_lt i).1
    rw [disk]
    dsimp only
    rw [himg _ (by omega), getDinode_zero]
  have hst : ∀ x, s.disk.stored x = 0 := fun x ↦ by
    rw [FsDisk.stored, hdinode]
    exact FsDisk.pointer_of_addrs (fun _ ↦ rfl) _
  refine ⟨⟨hlen, hfree.ge, hfree ▸ hmeta.le, fun x hx _ ↦ himg x ?_, hone⟩, ⟨?_, ?_⟩,
    fun i _ ↦ hdinode i, fun i e hi ↦ absurd hi.symm (Option.some_ne_none e)⟩
  · have : 1 < nMeta := by decide
    omega
  · refine ⟨fun x hx ↦ absurd (hst x) hx, fun x y hx ↦ absurd (hst x) hx, fun b hb ↦ ?_, ?_⟩
    · have hlt : b.toNat < s.freeblock := of_decide_eq_true hb.2
      have hge := (inData_iff.1 hb.1).1
      omega
    · exact fun h ↦ h.1.ne_zero rfl
  · intro b hb
    rw [layout_datastart] at hb
    exact decide_eq_true (hfree.symm ▸ hb)

theorem holds_start : Holds start fun _ ↦ none := by
  rw [start_eq]
  refine holds_empty (fun x hx ↦ ?_) ?_ rfl rfl
  · dsimp only
    rw [update_of_ne hx]
  · dsimp only
    rw [update_self]

theorem freeinode_makeRoot (h : makeRoot = some s) : s.freeinode = 2 := by
  rw [makeRoot] at h
  obtain ⟨r, hr, h⟩ := Option.bind_eq_some_iff.1 h
  split at h
  · obtain ⟨s₁, hs₁, h⟩ := Option.bind_eq_some_iff.1 h
    rw [freeinode_iappend h, freeinode_iappend hs₁, (freeinode_ialloc hr).1, start_eq]
  · exact absurd h.symm (Option.some_ne_none s)

theorem freeinode_addFile (h : s.addFile f = some s') : s'.freeinode = s.freeinode + 1 := by
  rw [addFile] at h
  split at h
  · exact absurd h.symm (Option.some_ne_none s')
  · obtain ⟨r, hr, h⟩ := Option.bind_eq_some_iff.1 h
    obtain ⟨s₁, hs₁, h⟩ := Option.bind_eq_some_iff.1 h
    rw [freeinode_appendFile _ h, freeinode_iappend hs₁, (freeinode_ialloc hr).1]

theorem freeinode_addFiles (todo : List InputFile) : ∀ {s : Mkfs},
    todo.foldlM Mkfs.addFile s = some s' → s'.freeinode = s.freeinode + todo.length := by
  induction todo with
  | nil =>
    intro s h
    obtain rfl := Option.some.inj h
    rfl
  | cons f todo ih =>
    intro s h
    rw [List.foldlM_cons] at h
    obtain ⟨s₁, hs₁, h⟩ := Option.bind_eq_some_iff.1 h
    rw [ih h, freeinode_addFile hs₁, List.length_cons]
    omega

/-- The size that `main` gives to the root directory in the end. -/
def fixedSize (off : ℕ) : Word := BitVec.ofNat 32 ((off / bSize + 1) * bSize)

theorem fixRoot_eq (h : Holds s V) (hroot : V root = some e) : ∃ s', s.fixRoot = some s' ∧
    s'.disk = s.disk.iupdate root { s.disk.dinode root with size := fixedSize e.bytes.length } ∧
    Wf s' ∧ s'.freeblock = s.freeblock ∧ s'.freeinode = s.freeinode := by
  have hino : rootino = root.val + 1 := rfl
  obtain ⟨s', hs', hrest⟩ := winode_eq h.wf root
    { s.disk.dinode root with size := fixedSize e.bytes.length }
  refine ⟨s', ?_, hrest⟩
  rw [fixRoot, hino, rinode_eq h.wf.len]
  dsimp only [bind, Option.bind]
  rw [(h.holding root e hroot).size]
  exact hs'

theorem sector_bmapstart : sector sb.bmapstart = nMeta - 1 := by decide

theorem balloc_eq (h : Wf s) : ∃ s', s.balloc s.freeblock = some s' ∧ s'.disk = s.disk ∧ Wf s' ∧
    s'.img (nMeta - 1) = (List.range s.freeblock).foldl setBit (fun _ ↦ 0) ∧
    s'.freeblock = s.freeblock ∧ s'.freeinode = s.freeinode := by
  have hlt : s.freeblock < bSize * 8 := h.le.trans_lt (by decide)
  have hge := h.ge
  have hmeta := nMeta_lt
  have hone : 1 < nMeta - 1 := by decide
  refine ⟨s.wsect sb.bmapstart ((List.range s.freeblock).foldl setBit fun _ ↦ 0), if_pos hlt,
    ?_, ⟨len_wsect h.len ?_ _, h.ge, h.le, fun x hx hx' ↦ ?_, ?_⟩, ?_, rfl, rfl⟩
  · -- the sector is neither in the inode area nor in the data area
    refine FsDisk.eq_of_fields rfl (funext fun i ↦ ?_) (funext fun b ↦ ?_)
    · have hib := (sector_iblock_lt i).2
      dsimp only [disk, wsect]
      rw [sector_bmapstart, update_of_ne (by omega)]
    · dsimp only [disk, wsect]
      split
      · rw [sector_bmapstart, update_of_ne (by omega)]
      · rfl
  · rw [sector_bmapstart]
    omega
  · dsimp only [wsect] at hx ⊢
    rw [sector_bmapstart, update_of_ne (by omega)]
    exact h.zero x hx hx'
  · dsimp only [wsect]
    rw [sector_bmapstart, update_of_ne (by omega)]
    exact h.super
  · dsimp only [wsect]
    rw [sector_bmapstart, update_self]

theorem freeinode_main (h : main files = some s) : s.freeinode = files.length + 2 := by
  rw [main] at h
  obtain ⟨s₁, hs₁, h⟩ := Option.bind_eq_some_iff.1 h
  obtain ⟨s₂, hs₂, h⟩ := Option.bind_eq_some_iff.1 h
  obtain ⟨s₃, hs₃, h⟩ := Option.bind_eq_some_iff.1 h
  have h₃ : s₃.freeinode = s₂.freeinode := by
    rw [fixRoot] at hs₃
    obtain ⟨din, _, hs₃⟩ := Option.bind_eq_some_iff.1 hs₃
    exact freeinode_winode hs₃
  have h₄ : s.freeinode = s₃.freeinode := by
    rw [balloc] at h
    split at h
    · obtain rfl := Option.some.inj h
      rfl
    · exact absurd h.symm (Option.some_ne_none s)
  rw [h₄, h₃, freeinode_addFiles _ hs₂, freeinode_makeRoot hs₁, Nat.add_comm]

/-- The image that mkfs leaves: the volume of the files, but for the size of the root directory. -/
structure Finished (files : List InputFile) (s₁ s : Mkfs) : Prop where
  holds : Holds s₁ (vol files)
  disk : s.disk = s₁.disk.iupdate root
    { s₁.disk.dinode root with size := fixedSize (direntSize * (files.length + 2)) }
  wf : Wf s
  bitmap : s.img (nMeta - 1) = (List.range s.freeblock).foldl setBit (fun _ ↦ 0)
  freeblock : s.freeblock = s₁.freeblock

theorem exists_finished (h : Holds s (vol files)) : ∃ s₁ s₂, s.fixRoot = some s₁ ∧
    s₁.balloc s₁.freeblock = some s₂ ∧ Finished files s s₂ := by
  obtain ⟨s₁, hs₁, hdisk₁, hwf₁, hblock₁, -⟩ := fixRoot_eq h (vol_root files)
  obtain ⟨s₂, hs₂, hdisk, hwf, hbit, hblock, -⟩ := balloc_eq hwf₁
  rw [length_rootEntry] at hdisk₁
  exact ⟨s₁, s₂, hs₁, hs₂, h, hdisk.trans hdisk₁, hwf, hblock.symm ▸ hbit, hblock.trans hblock₁⟩

/-! ## Room for the files -/

/-- Blocks for a content of `z` bytes, the indirect block included. -/
def need (z : ℕ) : ℕ := (z + (bSize - 1)) / bSize + if ndirect * bSize < z then 1 else 0

/-- The places that a content of `z` bytes needs, in a list. -/
def places (z : ℕ) : List Pointer :=
  (List.range ((z + (bSize - 1)) / bSize)).filterMap Pointer.ofBlock ++
    if ndirect * bSize < z then [.last] else []

theorem mem_places {z : ℕ} (h : Pointer.Needed z q) : q ∈ places z := by
  rcases h with ⟨bn, hbn, hq⟩ | ⟨rfl, hlt⟩
  · refine List.mem_append_left _ (List.mem_filterMap.2 ⟨bn, List.mem_range.2 ?_, hq⟩)
    simp only [bSize] at hbn ⊢
    omega
  · rw [places, if_pos hlt]
    exact List.mem_append_right _ (List.mem_singleton_self _)

theorem length_places_le (z : ℕ) : (places z).length ≤ need z := by
  rw [places, need, List.length_append]
  refine Nat.add_le_add ?_ ?_
  · exact (List.length_filterMap_le _ _).trans_eq List.length_range
  · split
    · exact le_rfl
    · exact le_rfl

def fileBlocks : List InputFile → ℕ
  | [] => 0
  | f :: files => need f.contents.length + fileBlocks files

/-- The places that the contents of the files need, the first file being in the inode at index
`k`. -/
def filePlaces : ℕ → List InputFile → List (ℕ × Pointer)
  | _, [] => []
  | k, f :: files => (places f.contents.length).map (Prod.mk k) ++ filePlaces (k + 1) files

def blocksNeeded (files : List InputFile) : ℕ :=
  nMeta + need (direntSize * (files.length + 2)) + fileBlocks files

def allPlaces (files : List InputFile) : List (ℕ × Pointer) :=
  (places (direntSize * (files.length + 2))).map (Prod.mk 0) ++ filePlaces 1 files

theorem length_filePlaces_le (files : List InputFile) :
    ∀ k, (filePlaces k files).length ≤ fileBlocks files := by
  induction files with
  | nil => exact fun _ ↦ le_rfl
  | cons f files ih =>
    intro k
    rw [filePlaces, fileBlocks, List.length_append, List.length_map]
    exact Nat.add_le_add (length_places_le _) (ih _)

theorem mem_filePlaces (files : List InputFile) : ∀ {k j : ℕ} {f : InputFile},
    files[j]? = some f → Pointer.Needed f.contents.length q → (k + j, q) ∈ filePlaces k files := by
  induction files with
  | nil =>
    intro k j f hf
    rw [List.getElem?_nil] at hf
    exact absurd hf.symm (Option.some_ne_none f)
  | cons f' files ih =>
    intro k j f hf hq
    rw [filePlaces]
    cases j with
    | zero =>
      rw [List.getElem?_cons_zero] at hf
      obtain rfl := Option.some.inj hf
      exact List.mem_append_left _ (List.mem_map_of_mem (mem_places hq))
    | succ j =>
      rw [List.getElem?_cons_succ] at hf
      refine List.mem_append_right _ ?_
      have hmem := ih (k := k + 1) hf hq
      rwa [Nat.add_assoc, Nat.add_comm 1 j] at hmem

theorem length_allPlaces_le (h : blocksNeeded files ≤ fssize) :
    (allPlaces files).length ≤ fssize - nMeta := by
  have h₁ := length_places_le (direntSize * (files.length + 2))
  have h₂ := length_filePlaces_le files 1
  rw [blocksNeeded] at h
  rw [allPlaces, List.length_append, List.length_map]
  omega

def Listed (P : List (ℕ × Pointer)) (V : Volume) : Prop :=
  ∀ i e, V i = some e → ∀ q, Pointer.Needed e.bytes.length q → (i.val, q) ∈ P

theorem Listed.covered (hP : Listed P V) (h : Holds s V) : Covered P s.disk := by
  rintro ⟨i, q⟩ hne
  cases hV : V i with
  | none =>
    rw [FsDisk.stored, h.free i hV] at hne
    exact absurd (FsDisk.pointer_of_addrs (fun _ ↦ rfl) q) hne
  | some e => exact hP i e hV q (((h.holding i e hV).needed q).1 hne)

/-! ## What the steps make -/

/-- The places that the volume needs are listed, in a list that is not too long, and no entry is too
large. -/
structure Roomy (P : List (ℕ × Pointer)) (V : Volume) : Prop where
  room : P.length ≤ fssize - nMeta
  listed : Listed P V
  fits : ∀ i e, V i = some e → e.bytes.length ≤ maxFile * bSize

/-- The step leaves the volume `V` if it comes through, and it comes through on the condition
`c`. -/
structure Makes (c : Prop) (r : Option Mkfs) (V : Volume) : Prop where
  holds : ∀ s, r = some s → Holds s V
  comes : c → ∃ s, r = some s

variable {c : Prop} {xp : List (BitVec 8)} {V' : Volume}

theorem Roomy.of_append (hi : V i = some e)
    (h : Roomy P (update V i (some (e.append xp)))) : Roomy P V := by
  -- an entry of `V` is at most as long as the one in its place
  have hle : ∀ j e₁, V j = some e₁ → ∃ e₂,
      update V i (some (e.append xp)) j = some e₂ ∧ e₁.bytes.length ≤ e₂.bytes.length := by
    intro j e₁ hj
    by_cases hji : j = i
    · subst hji
      obtain rfl := Option.some.inj (hi.symm.trans hj)
      exact ⟨_, update_self .., (List.prefix_append _ _).length_le⟩
    · exact ⟨e₁, by rwa [update_of_ne hji], le_rfl⟩
  refine ⟨h.room, fun j e₁ hj q hq ↦ ?_, fun j e₁ hj ↦ ?_⟩
  · obtain ⟨e₂, he₂, hlen⟩ := hle j e₁ hj
    exact h.listed j e₂ he₂ q (hq.mono hlen)
  · obtain ⟨e₂, he₂, hlen⟩ := hle j e₁ hj
    exact hlen.trans (h.fits j e₂ he₂)

theorem Makes.bind {r : Option Mkfs} {g : Mkfs → Option Mkfs} (h : Makes c r V)
    (hg : ∀ s, r = some s → Holds s V → Makes c (g s) V') : Makes c (r >>= g) V' := by
  refine ⟨fun s' hs' ↦ ?_, fun hc ↦ ?_⟩
  · obtain ⟨s, hs, hs'⟩ := Option.bind_eq_some_iff.1 hs'
    exact (hg s hs (h.holds s hs)).holds s' hs'
  · obtain ⟨s, hs⟩ := h.comes hc
    obtain ⟨s', hs'⟩ := (hg s hs (h.holds s hs)).comes hc
    exact ⟨s', Option.bind_eq_some_iff.2 ⟨s, hs, hs'⟩⟩

theorem Holds.makes (h : Holds s V) : Makes c (some s) V :=
  ⟨fun _ hs ↦ Option.some.inj hs ▸ h, fun _ ↦ ⟨s, rfl⟩⟩

theorem Holds.makes_iappend (h : Holds s V) (hi : V i = some e)
    (hc : c → Roomy P (update V i (some (e.append xp)))) :
    Makes c (s.iappend (i + 1) xp) (update V i (some (e.append xp))) := by
  refine ⟨fun s' hs' ↦ h.iappend hi hs', fun hx ↦ ?_⟩
  have hself := update_self i (some (e.append xp)) V
  have hlen : (e.append xp).bytes.length = e.bytes.length + xp.length := List.length_append
  exact h.iappend_isSome hi (hlen ▸ (hc hx).fits i _ hself)
    (((hc hx).of_append hi).listed.covered h)
    (hlen ▸ (hc hx).listed i _ hself) (hc hx).room

theorem Holds.makes_appendFile (fuel : ℕ) : ∀ {s : Mkfs} {V : Volume} {e : Content}
    {bytes : List (BitVec 8)}, bytes.length ≤ fuel → Holds s V → V i = some e →
    (c → Roomy P (update V i (some (e.append bytes)))) →
    Makes c (appendFile (i + 1) fuel s bytes) (update V i (some (e.append bytes))) := by
  have hnil : ∀ {V : Volume} {e : Content}, V i = some e →
      update V i (some (e.append [])) = V := by
    intro V e hi
    have heq : e.append [] = e := by rw [Content.append, List.append_nil]
    rw [heq, ← hi, update_eq_self]
  induction fuel with
  | zero =>
    intro s V e bytes hlen h hi _
    obtain rfl : bytes = [] := List.eq_nil_of_length_eq_zero (Nat.le_zero.1 hlen)
    rw [hnil hi]
    exact h.makes
  | succ fuel ih =>
    intro s V e bytes hlen h hi hc
    rw [Mkfs.appendFile]
    by_cases hbytes : bytes = []
    · rw [if_pos hbytes, hbytes, hnil hi]
      exact h.makes
    · rw [if_neg hbytes]
      have hpos := List.length_pos_of_ne_nil hbytes
      have hdrop : (bytes.drop bSize).length ≤ fuel := by
        rw [List.length_drop]
        simp only [bSize]
        omega
      have heq : update (update V i (some (e.append (bytes.take bSize)))) i
          (some ((e.append (bytes.take bSize)).append (bytes.drop bSize))) =
          update V i (some (e.append bytes)) := by
        rw [update_idem, Content.append, Content.append, Content.append, List.append_assoc,
          List.take_append_drop]
      rw [← heq] at hc ⊢
      refine (h.makes_iappend hi fun hx ↦ (hc hx).of_append (update_self ..)).bind
        fun s₁ _ h₁ ↦ ?_
      exact ih hdrop h₁ (update_self ..) hc

theorem Holds.makes_addFile (h : Holds s (vol files)) (hn : files.length + 1 < nInodes)
    (hfree : s.freeinode = files.length + 2) (hslash : c → slash ∉ f.name)
    (hc : c → Roomy P (vol (files ++ [f]))) : Makes c (s.addFile f) (vol (files ++ [f])) := by
  obtain ⟨i, hi⟩ : ∃ i : Ino, i.val = files.length + 1 := ⟨⟨_, hn⟩, rfl⟩
  have htype : tFile ≠ 0 := by decide
  have hnone : vol files i = none := by
    rw [vol_of_pos (by omega), hi, Nat.add_sub_cancel, List.getElem?_eq_none le_rfl]
    rfl
  obtain ⟨s₀, hs₀, h₀, -⟩ := h.ialloc (by omega) hnone htype
  rw [Mkfs.addFile]
  by_cases hs : slash ∈ f.name
  · rw [if_pos hs]
    exact ⟨fun s' hs' ↦ absurd hs'.symm (Option.some_ne_none s'), fun hx ↦ absurd hs (hslash hx)⟩
  · have hne : root ≠ i := fun heq ↦ Nat.succ_ne_zero _ (hi.symm.trans (congrArg Fin.val heq.symm))
    have hroot : update (vol files) i (some ⟨tFile, [], htype⟩) root =
        some (rootEntry files) := (update_of_ne hne _ _).trans (vol_root files)
    have hfile : update (update (vol files) i (some ⟨tFile, [], htype⟩)) root
        (some (rootEntry (files ++ [f]))) i = some ⟨tFile, [], htype⟩ :=
      (update_of_ne hne.symm _ _).trans (update_self ..)
    have hino : rootino = root.val + 1 := rfl
    rw [← vol_append f hi (e := ⟨tFile, [], htype⟩)] at hc ⊢
    have hc₁ := fun hx ↦ Roomy.of_append hfile (hc hx)
    have hinum : files.length + 2 = i.val + 1 := by omega
    rw [rootEntry_append, hinum] at hc hc₁ hfile ⊢
    rw [if_neg hs, hs₀, Option.bind_eq_bind, Option.bind_some, hino]
    exact (h₀.makes_iappend hroot hc₁).bind fun s₁ _ h₁ ↦ h₁.makes_appendFile _ le_rfl hfile hc

theorem makes_makeRoot (hc : c → Roomy P (vol [])) : Makes c makeRoot (vol []) := by
  have hstart : start.freeinode = root.val + 1 := by
    rw [start_eq]
    rfl
  have htype : tDir ≠ 0 := by decide
  obtain ⟨s₀, hs₀, h₀, -⟩ := holds_start.ialloc hstart rfl htype
  have hino : root.val + 1 = rootino := rfl
  -- the two entries, one after the other
  have hvol : update (update (update (fun _ ↦ none) root
      (some ⟨tDir, [], htype⟩)) root
      (some (Content.append ⟨tDir, [], htype⟩ (dirent (root + 1) dot))))
      root (some ((Content.append ⟨tDir, [], htype⟩ (dirent (root + 1) dot)).append
        (dirent (root + 1) dotdot))) = vol [] := by
    funext j
    rw [update_idem, update_idem]
    by_cases hj : j = root
    · rw [hj, vol_root, update_self]
      rfl
    · rw [update_of_ne hj, vol_of_pos fun hv ↦ hj (Fin.ext hv)]
      rfl
  rw [← hvol] at hc ⊢
  rw [makeRoot, hs₀, Option.bind_eq_bind, Option.bind_some, if_pos hino]
  exact (h₀.makes_iappend (update_self ..)
    fun hx ↦ (hc hx).of_append (update_self ..)).bind
    fun s₁ _ h₁ ↦ h₁.makes_iappend (update_self ..) hc

theorem makes_addFiles (hn : files.length < nInodes) (hslash : c → ∀ f ∈ files, slash ∉ f.name)
    (hc : ∀ done todo, done ++ todo = files → c → Roomy P (vol done)) (todo : List InputFile) :
    ∀ {s : Mkfs} {done : List InputFile}, done ++ todo = files → Holds s (vol done) →
    s.freeinode = done.length + 2 → Makes c (todo.foldlM Mkfs.addFile s) (vol files) := by
  induction todo with
  | nil =>
    intro s done heq h _
    rw [List.append_nil] at heq
    exact heq ▸ h.makes
  | cons f todo ih =>
    intro s done heq h hfree
    have heq' : (done ++ [f]) ++ todo = files := by
      rw [← heq, List.append_assoc]
      rfl
    have hlt : done.length + 1 < nInodes := by
      rw [← heq, List.length_append, List.length_cons] at hn
      omega
    have hmem : f ∈ files := heq ▸ List.mem_append_right _ (List.mem_cons_self ..)
    rw [List.foldlM_cons]
    refine (h.makes_addFile hlt hfree (fun hx ↦ hslash hx f hmem) (hc _ _ heq')).bind
      fun s₁ hs₁ h₁ ↦ ih heq' h₁ ?_
    rw [freeinode_addFile hs₁, hfree, List.length_append]
    rfl

theorem listed_vol {done todo : List InputFile} : Listed (allPlaces (done ++ todo)) (vol done) := by
  intro i e hi q hq
  by_cases h₀ : i.val = 0
  · obtain rfl : i = root := Fin.ext h₀
    obtain rfl := Option.some.inj hi
    rw [length_rootEntry] at hq
    refine List.mem_append_left _ (List.mem_map_of_mem (mem_places (hq.mono ?_)))
    refine Nat.mul_le_mul_left _ ?_
    rw [List.length_append]
    omega
  · rw [vol_of_pos h₀] at hi
    obtain ⟨f, hf, rfl⟩ := Option.map_eq_some_iff.1 hi
    have hlt : i.val - 1 < done.length := (List.getElem?_eq_some_iff.1 hf).1
    have hf' : (done ++ todo)[i.val - 1]? = some f := by rwa [List.getElem?_append_left hlt]
    have hmem := mem_filePlaces (done ++ todo) (k := 1) hf' hq
    rw [Nat.add_sub_cancel' (by omega)] at hmem
    exact List.mem_append_right _ hmem

theorem rootEntry_fits {n : ℕ} (hn : n < nInodes) :
    direntSize * (n + 2) ≤ maxFile * bSize := by
  simp only [direntSize, dirsiz, maxFile, ndirect, nindirect, bSize, nInodes] at hn ⊢
  omega

theorem roomy_vol (hroom : blocksNeeded files ≤ fssize) (hn : files.length < nInodes)
    (hfits : ∀ f ∈ files, f.contents.length ≤ maxFile * bSize) (done todo : List InputFile)
    (heq : done ++ todo = files) : Roomy (allPlaces files) (vol done) := by
  refine ⟨length_allPlaces_le hroom, heq ▸ listed_vol, fun i e hi ↦ ?_⟩
  by_cases h₀ : i.val = 0
  · obtain rfl : i = root := Fin.ext h₀
    obtain rfl := Option.some.inj hi
    rw [length_rootEntry]
    refine rootEntry_fits (lt_of_le_of_lt ?_ hn)
    rw [← heq, List.length_append]
    exact Nat.le_add_right _ _
  · rw [vol_of_pos h₀] at hi
    obtain ⟨f, hf, rfl⟩ := Option.map_eq_some_iff.1 hi
    exact hfits f (heq ▸ List.mem_append_left _ (List.mem_of_getElem? hf))

/-- **mkfs makes the volume of its files.** -/
theorem finished_of_main (hn : files.length < nInodes) (h : main files = some s) :
    ∃ s₁, Finished files s₁ s := by
  rw [main] at h
  obtain ⟨s₀, hs₀, h⟩ := Option.bind_eq_some_iff.1 h
  obtain ⟨s₁, hs₁, h⟩ := Option.bind_eq_some_iff.1 h
  obtain ⟨s₂, hs₂, h⟩ := Option.bind_eq_some_iff.1 h
  have h₀ := (makes_makeRoot (P := []) False.elim).holds s₀ hs₀
  have h₁ := (makes_addFiles (P := []) hn False.elim (fun _ _ _ ↦ False.elim) files rfl h₀
    (freeinode_makeRoot hs₀)).holds s₁ hs₁
  obtain ⟨s₂', s', hs₂', hs', hfin⟩ := exists_finished h₁
  obtain rfl : s₂' = s₂ := Option.some.inj (hs₂'.symm.trans hs₂)
  obtain rfl : s' = s := Option.some.inj (hs'.symm.trans h)
  exact ⟨s₁, hfin⟩

/-- **When mkfs comes through.** -/
theorem main_isSome (hroom : blocksNeeded files ≤ fssize) (hn : files.length < nInodes)
    (hok : ∀ f ∈ files, slash ∉ f.name ∧ f.contents.length ≤ maxFile * bSize) :
    ∃ s, main files = some s := by
  have hroomy := roomy_vol hroom hn fun f hf ↦ (hok f hf).2
  have hroot := makes_makeRoot fun _ : True ↦ hroomy [] files rfl
  obtain ⟨s₀, hs₀⟩ := hroot.comes trivial
  have hadd := makes_addFiles hn (fun _ f hf ↦ (hok f hf).1)
    (fun done todo heq (_ : True) ↦ hroomy done todo heq) files rfl (hroot.holds s₀ hs₀)
    (freeinode_makeRoot hs₀)
  obtain ⟨s₁, hs₁⟩ := hadd.comes trivial
  obtain ⟨s₂, s₃, hs₂, hs₃, -⟩ := exists_finished (hadd.holds s₁ hs₁)
  refine ⟨s₃, ?_⟩
  rw [main]
  exact Option.bind_eq_some_iff.2 ⟨s₀, hs₀, Option.bind_eq_some_iff.2 ⟨s₁, hs₁,
    Option.bind_eq_some_iff.2 ⟨s₂, hs₂, hs₃⟩⟩⟩

end Mkfs

end OperatingSystems
