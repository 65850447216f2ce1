import OperatingSystems.Vm.ExecStack

/-!
# The image of a program

What `exec` loads: the bytes of every segment at its address, and zeros in all other places below
the stack. `allocuvm` delivers pages of zeros, and `loaduvm` fills them from the file, one read for
each page and a shorter one for the last. As segments do not share pages, none is overwritten by
another one. It does not matter in which order they are, as `allocuvm` does not give pages back.
-/

namespace OperatingSystems

/-! ## One segment -/

namespace Ram

variable {kend : BitVec 32} {pd pd' : PageDir} {r r' : Ram} {a n : ℕ} {e : Pte}

theorem user_memmove (hl : Ledger kend pd.pages) (hn : n < userPages) (he : pd.pte n = some e)
    (ha : a / pgSize < userPages) (bs : List Byte) :
    (r.memmove (p2v e.pa) 0 bs).user pd a
      = if a / pgSize = n ∧ a % pgSize < bs.length then bs[a % pgSize]? else r.user pd a := by
  rw [user, user]
  by_cases hpage : a / pgSize = n
  · rw [hpage, he, Option.map_some, memmove_frame_self, if_pos (Nat.zero_le _), Nat.sub_zero]
    by_cases hlt : a % pgSize < bs.length
    · rw [if_pos ⟨rfl, hlt⟩, List.getElem?_eq_getElem hlt]
      rfl
    · rw [if_neg fun h ↦ hlt h.2, List.getElem?_eq_none (not_lt.mp hlt)]
      rfl
  · rw [if_neg fun h ↦ hpage h.1]
    cases he' : pd.pte (a / pgSize) with
    | none => rw [Option.map_none, Option.map_none]
    | some e' =>
      have hne : p2v e'.pa ≠ p2v e.pa := fun heq ↦
        hpage (PageDir.eq_of_pa_eq hl hn ha he he' (add_right_cancel heq))
      rw [Option.map_some, Option.map_some, memmove_frame_of_ne hne]

theorem user_of_carries (h : pd.Carries r pd' r') (ha : a / pgSize < userPages)
    (hsome : (pd'.pte (a / pgSize)).isSome) :
    r'.user pd' a = r.user pd a ∧ (pd.pte (a / pgSize)).isSome ∨
      r'.user pd' a = some 0 ∧ pd.pte (a / pgSize) = none := by
  obtain ⟨e, he⟩ := Option.isSome_iff_exists.mp hsome
  rcases h _ e ha he with ⟨hold, hframe⟩ | ⟨hnone, hzero⟩
  · refine .inl ⟨?_, hold ▸ rfl⟩
    rw [user, user, he, hold]
    exact congrArg some (congrFun hframe _)
  · refine .inr ⟨?_, hnone⟩
    rw [user, he]
    exact congrArg some (congrFun hzero _)

end Ram

variable {off : Word} {a : ℕ}

section Load

variable {img : KernelImage} {r₀ r r' : Ram} {sz : ℕ} {pd : PageDir} {addr offset filesz : Word}
  {c : List Byte}

theorem readi_eq_take {n : Word} {bs : List Byte} (h : FileBytes.readi c off n = some bs) :
    off.toNat ≤ c.length ∧ bs = (c.drop off.toNat).take n.toNat := by
  rw [FileBytes.readi] at h
  split at h
  · cases h
  · exact ⟨by omega, (Option.some.inj h).symm⟩

theorem loadLoop_user (hc : c.length < 2 ^ 32) (h : Builds img r₀ sz pd r)
    (haligned : addr.toNat % pgSize = 0) (hend : addr.toNat + filesz.toNat ≤ sz) {m j : ℕ}
    (hm : j + m = (filesz.toNat + pgSize - 1) / pgSize)
    (hoff : m = 0 ∨ j = 0 ∨ offset.toNat + j * pgSize ≤ c.length)
    (hload : Ram.loadLoop pd addr c offset filesz m j r = .ok (true, r'))
    (ha : a / pgSize < userPages) :
    r'.user pd a = if addr.toNat + j * pgSize ≤ a ∧ a < addr.toNat + filesz.toNat then
      (c)[offset.toNat + (a - addr.toNat)]? else r.user pd a := by
  induction m generalizing j r with
  | zero =>
    cases hload
    rw [if_neg]
    rw [pgSize] at *
    omega
  | succ m ih =>
    have hsz := h.space.size
    have hj : j * pgSize < filesz.toNat := by
      rw [pgSize] at *
      omega
    have haddr : (addr + BitVec.ofNat 32 (j * pgSize)).toNat = addr.toNat + j * pgSize := by
      rw [BitVec.toNat_add, BitVec.toNat_ofNat]
      rw [pgSize, kernBase] at *
      omega
    have hoffset : (offset + BitVec.ofNat 32 (j * pgSize)).toNat = offset.toNat + j * pgSize := by
      have := offset.isLt
      rw [BitVec.toNat_add, BitVec.toNat_ofNat]
      rw [pgSize, kernBase] at *
      omega
    obtain ⟨e, he⟩ := h.exists_pte (a := addr.toNat + j * pgSize) (by omega)
    have hlt : (addr.toNat + j * pgSize) / pgSize * pgSize < sz :=
      lt_of_le_of_lt (Nat.div_mul_le_self _ pgSize) (by omega)
    have hpage := PageDir.lt_userPages hlt hsz
    have htable : ¬(pd.table ((addr.toNat + j * pgSize) / pgSize / npdEntries)).isNone := by
      rw [Option.isNone_iff_eq_none]
      exact Option.isSome_iff_ne_none.mp (h.space.laid.table hsz hlt)
    rw [Ram.loadLoop] at hload
    simp only [haddr] at hload
    rw [if_neg htable] at hload
    simp only [he, Option.map_some, Option.getD_some] at hload
    split at hload
    · cases hload
    · next bs hbs =>
      split at hload
      · cases hload
      · next hlen =>
        rw [not_not] at hlen
        obtain ⟨hle, hbs⟩ := readi_eq_take hbs
        have hn : (BitVec.ofNat 32 (min (filesz.toNat - j * pgSize) pgSize)).toNat
            = min (filesz.toNat - j * pgSize) pgSize := by
          rw [BitVec.toNat_ofNat, Nat.mod_eq_of_lt]
          rw [pgSize]
          omega
        rw [hn, hoffset] at hbs
        rw [hoffset] at hle
        have hall :
            offset.toNat + j * pgSize + min (filesz.toNat - j * pgSize) pgSize ≤ c.length := by
          rw [hbs, List.length_take, List.length_drop] at hlen
          omega
        have hstore : Builds img r₀ sz pd (r.memmove (p2v e.pa) 0 bs) := by
          refine h.write rfl fun v hv ↦ Ram.memmove_frame_of_ne ?_ _ _
          rintro rfl
          exact hv (PageDir.mem_pages_of_pte hpage he)
        rw [ih hstore (by omega) (by rw [pgSize] at hall hm ⊢; omega) hload,
          Ram.user_memmove h.ledger hpage he ha]
        -- the page of this round, the pages behind it, and the other ones
        by_cases hin : addr.toNat + j * pgSize ≤ a ∧ a < addr.toNat + filesz.toNat
        · rw [if_pos hin]
          by_cases hnext : addr.toNat + (j + 1) * pgSize ≤ a
          · rw [if_pos ⟨hnext, hin.2⟩]
          · have hthis : a / pgSize = (addr.toNat + j * pgSize) / pgSize ∧
                a % pgSize = a - addr.toNat - j * pgSize := by
              rw [pgSize] at hnext hin haligned ⊢
              omega
            have hsmall : a % pgSize < min (filesz.toNat - j * pgSize) pgSize := by
              rw [hthis.2]
              rw [pgSize] at hnext hin ⊢
              omega
            have hread : a % pgSize < bs.length := by
              rw [hlen]
              exact hsmall
            rw [if_neg fun h ↦ hnext h.1, if_pos ⟨hthis.1, hread⟩, hbs,
              List.getElem?_take_of_lt hsmall, List.getElem?_drop]
            refine congrArg ((c)[·]?) ?_
            omega
        · have hnext : ¬(addr.toNat + (j + 1) * pgSize ≤ a ∧ a < addr.toNat + filesz.toNat) :=
            fun h ↦ hin ⟨le_trans (by rw [Nat.add_one_mul]; omega) h.1, h.2⟩
          rw [if_neg hin, if_neg hnext, if_neg]
          rw [hlen]
          rw [pgSize] at hin haligned ⊢
          omega

theorem loaduvm_user (hc : c.length < 2 ^ 32) (h : Builds img r₀ sz pd r)
    (hend : addr.toNat + filesz.toNat ≤ sz)
    (hload : r.loaduvm pd addr c offset filesz = .ok (true, r')) (ha : a / pgSize < userPages) :
    r'.user pd a = if addr.toNat ≤ a ∧ a < addr.toNat + filesz.toNat then
      (c)[offset.toNat + (a - addr.toNat)]? else r.user pd a := by
  rw [Ram.loaduvm] at hload
  split at hload
  · cases hload
  · next haligned =>
    have huser := loadLoop_user hc h (not_not.mp haligned) hend (Nat.zero_add _) (.inr (.inl rfl))
      hload ha
    rwa [Nat.zero_mul, Nat.add_zero] at huser

end Load

/-! ## All segments -/

namespace Proghdr

/-- The segment has addresses in page `p`. -/
def Covers (ph : Proghdr) (p : ℕ) : Prop := Overlaps ph.vaddr.toNat ph.memsz.toNat p

/-- Address `a` is one of those that are loaded from the file. -/
def Holds (ph : Proghdr) (a : ℕ) : Prop :=
  ph.vaddr.toNat ≤ a ∧ a < ph.vaddr.toNat + ph.filesz.toNat

def Apart (ph ph' : Proghdr) : Prop := ∀ p, ¬(ph.Covers p ∧ ph'.Covers p)

theorem Apart.not_holds {ph ph' : Proghdr} (h : Apart ph ph')
    (hle : ph.filesz.toNat ≤ ph.memsz.toNat) (hle' : ph'.filesz.toNat ≤ ph'.memsz.toNat)
    (ha : ph.Holds a) : ¬ph'.Holds a := fun ha' ↦
  h (a / pgSize) ⟨⟨a, ha.1, ha.2.trans_le (Nat.add_le_add_left hle _), rfl⟩,
    ⟨a, ha'.1, ha'.2.trans_le (Nat.add_le_add_left hle' _), rfl⟩⟩

end Proghdr

/-- The headers of the segments that `exec` loads, among `k` program headers from `off` on. -/
def loadHeaders (c : List Byte) : ℕ → Word → List Proghdr
  | 0, _ => []
  | k + 1, off =>
    let rest := loadHeaders c k (off + BitVec.ofNat 32 Proghdr.size)
    match readProghdr c off with
    | none => []
    | some ph => if ph.type ≠ elfProgLoad then rest else ph :: rest

def segments (c : List Byte) : List Proghdr :=
  (readElfhdr c).elim [] fun elf ↦ loadHeaders c elf.phnum.toNat elf.phoff

/-- The segments `done` are in memory, and there are zeros everywhere else below the size. -/
structure Loaded (c : List Byte) (done : List Proghdr) (sz : ℕ) (pd : PageDir) (r : Ram) :
    Prop where
  segment : ∀ ph ∈ done, ∀ i, i < ph.filesz.toNat →
    r.user pd (ph.vaddr.toNat + i) = (c)[ph.off.toNat + i]?
  rest : ∀ a, a < pgRoundUp sz → (∀ ph ∈ done, ¬ph.Holds a) → r.user pd a = some 0
  le_sz : ∀ ph ∈ done, ph.vaddr.toNat + ph.filesz.toNat ≤ sz
  filesz_le : ∀ ph ∈ done, ph.filesz.toNat ≤ ph.memsz.toNat

section Segments

variable {img : KernelImage} {r₀ r r' : Ram} {sz sz' : ℕ} {pd pd' : PageDir} {c : List Byte}
  {done : List Proghdr} {ph : Proghdr}

theorem Loaded.grow (h : Loaded c done sz pd r) (hb : Builds img r₀ sz pd r)
    (hb' : Builds img r₀ sz' pd' r') (hle : sz ≤ sz') (hcarries : pd.Carries r pd' r') :
    Loaded c done sz' pd' r' := by
  have hsz := hb.space.size
  have hsome :
      ∀ {a}, a < pgRoundUp sz' → a / pgSize < userPages ∧ (pd'.pte (a / pgSize)).isSome := by
    intro a ha
    obtain ⟨e, he⟩ := hb'.round.exists_pte ha
    exact ⟨PageDir.lt_userPages (lt_of_le_of_lt (Nat.div_mul_le_self _ _) ha) hb'.round.space.size,
      he ▸ rfl⟩
  refine ⟨fun ph hph i hi ↦ ?_, fun a ha hnot ↦ ?_, fun ph hph ↦ (h.le_sz ph hph).trans hle,
    h.filesz_le⟩
  · have hlt : ph.vaddr.toNat + i < sz := by
      have := h.le_sz ph hph
      omega
    obtain ⟨hpage, hpte⟩ := hsome ((hlt.trans_le hle).trans_le (le_pgRoundUp sz'))
    obtain ⟨e, he⟩ := hb.exists_pte hlt
    rcases Ram.user_of_carries hcarries hpage hpte with ⟨heq, -⟩ | ⟨-, hnone⟩
    · rw [heq, h.segment ph hph i hi]
    · rw [he] at hnone
      cases hnone
  · obtain ⟨hpage, hpte⟩ := hsome ha
    rcases Ram.user_of_carries hcarries hpage hpte with ⟨heq, hold⟩ | ⟨hzero, -⟩
    · refine heq.trans (h.rest a ?_ hnot)
      -- a page that was there was below the old size
      have hlt := (hb.round.space.laid _ hpage).mp hold
      have hround : pgRoundUp sz % pgSize = 0 := Nat.mul_mod_left _ _
      rw [pgSize] at hlt hround
      omega
    · exact hzero

theorem Loaded.load (hc : c.length < 2 ^ 32) (h : Loaded c done sz pd r)
    (hb : Builds img r₀ sz pd r)
    (hapart : ∀ ph' ∈ done, Proghdr.Apart ph' ph) (hfilesz : ph.filesz.toNat ≤ ph.memsz.toNat)
    (hend : ph.vaddr.toNat + ph.filesz.toNat ≤ sz)
    (hload : r.loaduvm pd ph.vaddr c ph.off ph.filesz = .ok (true, r')) :
    Loaded c (done ++ [ph]) sz pd r' := by
  have hpage : ∀ {a}, a < pgRoundUp sz → a / pgSize < userPages := fun ha ↦
    PageDir.lt_userPages (lt_of_le_of_lt (Nat.div_mul_le_self _ _) ha) hb.round.space.size
  have hround := le_pgRoundUp sz
  refine ⟨fun ph' hph' i hi ↦ ?_, fun a ha hnot ↦ ?_, fun ph' hph' ↦ ?_, fun ph' hph' ↦ ?_⟩
  · rcases List.mem_append.mp hph' with hold | hnew
    · have hle := h.le_sz ph' hold
      have hholds : ph'.Holds (ph'.vaddr.toNat + i) := ⟨Nat.le_add_right _ _, by omega⟩
      rw [loaduvm_user hc hb hend hload (hpage (by omega)), if_neg, h.segment ph' hold i hi]
      exact (hapart ph' hold).not_holds (h.filesz_le ph' hold) hfilesz hholds
    · obtain rfl := List.mem_singleton.mp hnew
      rw [loaduvm_user hc hb hend hload (hpage (by omega)),
        if_pos ⟨Nat.le_add_right _ _, by omega⟩, Nat.add_sub_cancel_left]
  · have hout : ¬(ph.vaddr.toNat ≤ a ∧ a < ph.vaddr.toNat + ph.filesz.toNat) :=
      hnot ph (List.mem_append.mpr (.inr List.mem_cons_self))
    rw [loaduvm_user hc hb hend hload (hpage ha), if_neg hout]
    exact h.rest a ha fun ph' hph' ↦ hnot ph' (List.mem_append.mpr (.inl hph'))
  · rcases List.mem_append.mp hph' with hold | hnew
    · exact h.le_sz ph' hold
    · obtain rfl := List.mem_singleton.mp hnew
      exact hend
  · rcases List.mem_append.mp hph' with hold | hnew
    · exact h.filesz_le ph' hold
    · obtain rfl := List.mem_singleton.mp hnew
      exact hfilesz

/-- **The loop over the program headers** loads them one behind the other. -/
theorem loadSegments_loaded (hc : c.length < 2 ^ 32) {k : ℕ} (h : Loaded c done sz pd r)
    (hb : Builds img r₀ sz pd r) (hapart : (done ++ loadHeaders c k off).Pairwise Proghdr.Apart)
    (hload : r.loadSegments img c k off sz pd = .ok (some sz', pd', r')) :
    Loaded c (done ++ loadHeaders c k off) sz' pd' r' := by
  induction k generalizing done off sz pd r with
  | zero =>
    cases hload
    rw [loadHeaders, List.append_nil]
    exact h
  | succ k ih =>
    rw [loadHeaders] at hapart ⊢
    rw [Ram.loadSegments] at hload
    cases hph : readProghdr c off with
    | none =>
      simp only [hph] at hload
      cases hload
    | some ph =>
      simp only [hph] at hload hapart ⊢
      split at hload
      · next htype =>
        rw [if_pos htype] at hapart ⊢
        exact ih h hb hapart hload
      · next htype =>
        rw [if_neg htype] at hapart ⊢
        split at hload
        · cases hload
        · next hmemsz =>
          split at hload
          · cases hload
          · next hwrap =>
            obtain ⟨size, pd₁, r₁, halloc, hcarries, hcase⟩ :=
              hb.allocuvm (ph.vaddr + ph.memsz).toNat
            rw [halloc, ok_bind] at hload
            rcases hcase with ⟨rfl, hb₁⟩ | ⟨rfl, -⟩
            · dsimp only at hload
              split at hload
              · cases hload
              · split at hload
                · cases hload
                · next haligned =>
                  have hend := (Builds.end_le_of_proghdr hmemsz hwrap).trans (le_max_right sz _)
                  obtain ⟨b, r₂, hsegment, hb₂, -⟩ := hb₁.loaduvm haligned hend
                  rw [hsegment, ok_bind] at hload
                  cases b with
                  | false => cases hload
                  | true =>
                    rw [List.append_cons] at hapart ⊢
                    refine ih (.load hc (h.grow hb hb₁ (le_max_left _ _) hcarries) hb₁ ?_
                      (not_lt.mp hmemsz) hend hsegment) hb₂ hapart hload
                    intro ph' hph'
                    exact (List.pairwise_append.mp (List.pairwise_append.mp hapart).1).2.2
                      ph' hph' ph
                      List.mem_cons_self
            · cases hload

theorem loaded_nil : Loaded c [] 0 pd r where
  segment _ h := by cases h
  rest _ ha := absurd ha (Nat.not_lt_zero _)
  le_sz _ h := by cases h
  filesz_le _ h := by cases h

end Segments

/-! ## The new program -/

/-- **`exec` loads the file exactly.** Each segment is in memory where its header wants it, and the
rest of the memory below the two pages of the stack is zero. -/
theorem exec_image {img : KernelImage} {path : List Byte} {c : FileData} {argv : List UserString}
    {s s' : ExecState} (hl : Ledger img.kend (s.proc.pgdir.account s.ram.pool))
    (hapart : (segments c.bytes).Pairwise Proghdr.Apart)
    (h : exec img path (some c) argv s = .ok (0, s')) :
    (∀ ph ∈ segments c.bytes, ∀ i, i < ph.filesz.toNat → ∃ b,
      c.bytes[ph.off.toNat + i]? = some b ∧
      s'.ram.user s'.proc.pgdir (ph.vaddr.toNat + i) = some b) ∧
    ∀ a, a < s'.proc.sz - 2 * pgSize → (∀ ph ∈ segments c.bytes, ¬ph.Holds a) →
      s'.ram.user s'.proc.pgdir a = some 0 := by
  rcases exec_cases (hl.mono (Multiset.le_add_right _ _)) h with ⟨hret, -⟩ | ⟨-, c', hc', ⟨hrun⟩⟩
  · exact absurd hret (by decide)
  · cases hc'
    have hsegments :
        segments c.bytes = loadHeaders c.bytes hrun.elf.phnum.toNat hrun.elf.phoff := by
      rw [segments, hrun.readElf]
      rfl
    rw [hsegments] at hapart ⊢
    have hloaded := loadSegments_loaded c.size_lt loaded_nil hrun.start hapart hrun.load
    rw [List.nil_append] at hloaded
    obtain ⟨-, -, -, hsz, hbelow⟩ := hrun.stack_built
    have huser : ∀ {a}, a < pgRoundUp hrun.sz₁ →
        s'.ram.user hrun.pd a = hrun.r₁.user hrun.pd₁ a := fun {a} ha ↦
      (hrun.user_eq hl (by omega)).trans (hbelow a ha)
    rw [hrun.proc]
    dsimp only
    refine ⟨fun ph hph i hi ↦ ?_, fun a ha hnot ↦ ?_⟩
    · have hlt : ph.vaddr.toNat + i < pgRoundUp hrun.sz₁ := by
        have hle := hloaded.le_sz ph hph
        have hround := le_pgRoundUp hrun.sz₁
        omega
      obtain ⟨e, he⟩ := hrun.loaded.round.exists_pte hlt
      have hfile := hloaded.segment ph hph i hi
      rw [huser hlt, ← hfile, Ram.user, he]
      exact ⟨_, rfl, rfl⟩
    · have hlt : a < pgRoundUp hrun.sz₁ := by omega
      rw [huser hlt]
      exact hloaded.rest a hlt hnot

/-- The bytes of the file are at the start of the program. -/
theorem exec_image_someProgram : ∃ s' : ExecState,
    s'.ram.user s'.proc.pgdir 0 = some 7 ∧ s'.ram.user s'.proc.pgdir 1 = some 8 ∧
    s'.ram.user s'.proc.pgdir 2 = some 9 := by
  obtain ⟨s, s', hl, hexec⟩ := exists_exec_someProgram
  have hsegments : segments someProgram.bytes = [⟨elfProgLoad, 84, 0, 3, 4096⟩] := by rfl
  obtain ⟨himage, -⟩ := exec_image hl (by rw [hsegments]; exact List.pairwise_singleton _ _) hexec
  rw [hsegments] at himage
  have hbyte : ∀ i b, i < 3 → someProgram.bytes[84 + i]? = some b →
      s'.ram.user s'.proc.pgdir i = some b := by
    intro i b hi hb
    obtain ⟨b', hb', huser⟩ := himage _ List.mem_cons_self i hi
    have hb' : someProgram.bytes[84 + i]? = some b' := hb'
    rw [hb] at hb'
    cases hb'
    rw [← huser]
    exact congrArg _ (Nat.zero_add i).symm
  exact ⟨s', hbyte 0 7 (by decide) rfl, hbyte 1 8 (by decide) rfl, hbyte 2 9 (by decide) rfl⟩

end OperatingSystems
