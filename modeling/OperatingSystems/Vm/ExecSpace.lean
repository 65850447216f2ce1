import OperatingSystems.Vm.Exec

/-!
# An address space under construction

`exec` builds the new address space from free pages, beside the old one, and only in the end lets it
take the place of the old one. `Builds` says what holds on the way: the new directory is laid out,
its pages together with those that are still free are the pages that were free at the start, and no
other page has been written to. So at any exit `freevm` gives back exactly what was taken, and
nothing else has changed.

Where `exec` succeeds, it takes the step of `Kernel.exec`, which only counts pages (`exec_pool`).
-/

namespace OperatingSystems

/-- The directory `pd` of size `sz` is made of pages that were free in `r₀`, and only these were
written to. -/
structure Builds (img : KernelImage) (r₀ : Ram) (sz : ℕ) (pd : PageDir) (r : Ram) : Prop where
  space : Space img sz pd r.pool
  kernelOnly : pd.KernelOnly
  account : pd.account r.pool = r₀.pool.free
  frame : ∀ v, v ∉ r₀.pool.free → r.frame v = r₀.frame v

/-- The pages are free as in `r₀`, and the others are as they were. -/
structure Restored (r₀ r : Ram) : Prop where
  perm : r.pool.free.Perm r₀.pool.free
  frame : ∀ v, v ∉ r₀.pool.free → r.frame v = r₀.frame v

theorem Restored.refl (r : Ram) : Restored r r := ⟨List.Perm.refl _, fun _ _ ↦ rfl⟩

variable {argv : List UserString}

/-! ## The arguments -/

section Keeps

variable {P : Ram → Prop} {pd : PageDir} {r r' : Ram}
  (hcopy : ∀ {va buf b r r'}, Ram.copyout pd va buf r = .ok (b, r') → P r → P r')

include hcopy

theorem Ram.pushArgs_keeps {sp : Word} {ptrs : List Word} {o : Option (Word × List Word)} (h : P r)
    (hpush : r.pushArgs pd argv sp ptrs = .ok (o, r')) : P r' := by
  induction argv generalizing sp ptrs r with
  | nil =>
    cases hpush
    exact h
  | cons s argv ih =>
    rw [Ram.pushArgs] at hpush
    split at hpush
    · cases hpush
      exact h
    · obtain ⟨⟨copied, r₁⟩, hr₁, hpush⟩ := bind_eq_ok_iff.mp hpush
      have h₁ := hcopy hr₁ h
      cases copied with
      | false =>
        cases hpush
        exact h₁
      | true => exact ih h₁ hpush

theorem Ram.execArgs_keeps {size : ℕ} {o : Option Word} (h : P r)
    (hargs : r.execArgs pd argv size = .ok (o, r')) : P r' := by
  obtain ⟨⟨o₁, r₁⟩, hpush, hargs⟩ := bind_eq_ok_iff.mp hargs
  have h₁ := Ram.pushArgs_keeps hcopy h hpush
  cases o₁ with
  | none =>
    cases hargs
    exact h₁
  | some y =>
    obtain ⟨⟨copied, r₂⟩, hr₂, hargs⟩ := bind_eq_ok_iff.mp hargs
    have h₂ := hcopy hr₂ h₁
    cases copied <;> cases hargs <;> exact h₂

end Keeps

namespace Builds

variable {img : KernelImage} {r₀ r r' : Ram} {sz newsz n : ℕ} {pd pd' : PageDir} {b : Bool}
  {addr offset filesz : Word} {c : List Byte}

theorem ledger (h : Builds img r₀ sz pd r) : Ledger img.kend pd.pages :=
  h.space.ledger.mono (Multiset.le_add_left _ _)

theorem notMem_account (h : Builds img r₀ sz pd r) {v : BitVec 32} (hv : v ∉ r₀.pool.free) :
    v ∉ pd.account r.pool := by
  rw [h.account]
  exact hv

theorem write (h : Builds img r₀ sz pd r) (hpool : r'.pool = r.pool)
    (hframe : ∀ v, v ∉ pd.pages → r'.frame v = r.frame v) : Builds img r₀ sz pd r' := by
  refine ⟨hpool ▸ h.space, h.kernelOnly, hpool ▸ h.account, fun v hv ↦ ?_⟩
  have hmem : v ∉ pd.pages := fun hmem ↦ h.notMem_account hv (Multiset.mem_add.mpr (.inr hmem))
  rw [hframe v hmem, h.frame v hv]

theorem copyout {va : Word} {buf : List Byte} (h : Builds img r₀ sz pd r)
    (hcopy : r.copyout pd va buf = .ok (b, r')) : Builds img r₀ sz pd r' := by
  obtain ⟨hpool, hframe⟩ := Ram.copyout_within h.kernelOnly hcopy
  exact h.write hpool hframe

theorem execArgs {size : ℕ} {o : Option Word} (h : Builds img r₀ sz pd r)
    (hargs : r.execArgs pd argv size = .ok (o, r')) : Builds img r₀ sz pd r' :=
  Ram.execArgs_keeps (fun hc h ↦ h.copyout hc) h hargs

theorem freevm (h : Builds img r₀ sz pd r) :
    ∃ r', r.freevm img.kend pd = .ok r' ∧ Restored r₀ r' := by
  obtain ⟨s, hs⟩ := PageDir.exists_freevm h.space.ledger
  rw [← Ram.freevm_pool] at hs
  obtain ⟨r', hr', rfl⟩ := map_eq_ok_iff.mp hs
  have hfree : (r'.pool.free : Multiset (BitVec 32)) = r₀.pool.free := by
    rw [← h.account, ← PageDir.freevm_spec (Ram.freevm_pool ▸ hs)]
  refine ⟨r', hr', Multiset.coe_eq_coe.mp hfree, fun v hv ↦ ?_⟩
  rw [(Ram.frees_freevm hr').frame v fun hmem ↦ hv ?_, h.frame v hv]
  rwa [← Multiset.mem_coe, hfree, Multiset.mem_coe] at hmem

theorem setupkvm (hl : Ledger img.kend r.pool.free) : ∃ o r', r.setupkvm img = .ok (o, r') ∧
    (o = none → Restored r r') ∧ ∀ pd, o = some pd → Builds img r 0 pd r' := by
  obtain ⟨o, s, hs, hempty⟩ := PageDir.exists_setupkvm_of_ledger hl
  have hacc := PageDir.setupkvm_spec hs
  have hsetup := hs
  rw [← Ram.setupkvm_pool] at hs
  obtain ⟨⟨o', r'⟩, hr', heq⟩ := map_eq_ok_iff.mp hs
  cases heq
  refine ⟨o', r', hr', ?_, ?_⟩
  · rintro rfl
    have hfree : (r'.pool.free : Multiset (BitVec 32)) = r.pool.free := (add_zero _).symm.trans hacc
    refine ⟨Multiset.coe_eq_coe.mp hfree, fun v hv ↦ Ram.untouched_setupkvm hr' v hv
      fun hmem ↦ hv ?_⟩
    rwa [← Multiset.mem_coe, hfree, Multiset.mem_coe] at hmem
  · rintro pd rfl
    have hacc : pd.account r'.pool = r.pool.free := hacc
    exact ⟨⟨hacc ▸ hl, PageDir.laid_zero (hempty pd rfl), Nat.zero_le _⟩,
      PageDir.kernelOnly_setupkvm hsetup, hacc, (Ram.takes_setupkvm hr').frame⟩

theorem allocuvm (h : Builds img r₀ sz pd r) (newsz : ℕ) : ∃ size pd' r',
    r.allocuvm img pd sz newsz = .ok (size, pd', r') ∧ pd.Carries r pd' r' ∧
      (size = max sz newsz ∧ Builds img r₀ (max sz newsz) pd' r' ∨
        size = 0 ∧ Builds img r₀ sz pd' r') := by
  by_cases hbig : newsz ≥ kernBase
  · refine ⟨0, pd, r, ?_, Ram.carries_refl pd r, .inr ⟨rfl, h⟩⟩
    rw [Ram.allocuvm, if_pos hbig]
  · by_cases hlt : newsz < sz
    · refine ⟨sz, pd, r, ?_, Ram.carries_refl pd r, .inl ?_⟩
      · rw [Ram.allocuvm, if_neg hbig, if_pos hlt]
      · rw [max_eq_left hlt.le]
        exact ⟨rfl, h⟩
    · obtain ⟨size, pd', r', halloc, hcarries, hcase⟩ := h.space.allocuvm_carries (not_lt.mp hlt)
      have hpool := Ram.pool_of_allocuvm halloc
      have hacc := PageDir.allocuvm_spec hpool
      have hun := Ram.untouched_allocuvm h.space.nodup_free halloc
      -- whatever is written to is free before or afterwards, and so one of the pages
      have hframe : ∀ v, v ∉ r₀.pool.free → r'.frame v = r₀.frame v := fun v hv ↦ by
        have hv' := h.notMem_account hv
        rw [hun v (fun hmem ↦ hv' (Multiset.mem_add.mpr (.inl hmem))) fun hmem ↦ hv' ?_,
          h.frame v hv]
        rw [← hacc]
        exact Multiset.mem_add.mpr (.inl hmem)
      have hbuilds : ∀ {sz'}, Space img sz' pd' r'.pool → Builds img r₀ sz' pd' r' := fun hspace ↦
        ⟨hspace, h.kernelOnly.allocuvm hpool, hacc.trans h.account, hframe⟩
      refine ⟨size, pd', r', halloc, hcarries, ?_⟩
      rw [max_eq_right (not_lt.mp hlt)]
      rcases hcase with ⟨hsize, -, hspace⟩ | ⟨h0, hspace, -⟩
      · exact .inl ⟨hsize, hbuilds hspace⟩
      · exact .inr ⟨h0, hbuilds hspace⟩

theorem clearpteu (h : Builds img r₀ sz pd r) (hn : n * pgSize < sz) : ∃ pd',
    pd.clearpteu n = .ok pd' ∧ Builds img r₀ sz pd' r ∧
      pd'.pte = Function.update pd.pte n
        ((pd.pte n).map fun e ↦ { e with perm := { e.perm with u := false } }) := by
  obtain ⟨pd', hclear, hspace⟩ := h.space.clearpteu hn
  have hpages := PageDir.clearpteu_spec (PageDir.lt_userPages hn h.space.size) hclear
  refine ⟨pd', hclear, ⟨hspace, h.kernelOnly.clearpteu hclear, ?_, h.frame⟩, ?_⟩
  · rw [PageDir.account, hpages]
    exact h.account
  · rw [PageDir.clearpteu] at hclear
    split at hclear
    · cases hclear
    · cases hclear
      exact PageDir.pte_setPte (h.space.laid.table h.space.size hn)

theorem exists_freevm {old : PageDir} (h : Builds img r₀ sz pd r)
    (hl : Ledger img.kend (old.account r₀.pool)) : ∃ r', r.freevm img.kend old = .ok r' := by
  have hold : Ledger img.kend (old.account r.pool) := by
    refine hl.mono ?_
    rw [PageDir.account, PageDir.account, ← h.account]
    exact add_le_add (Multiset.le_add_right _ _) le_rfl
  obtain ⟨s, hs⟩ := PageDir.exists_freevm hold
  rw [← Ram.freevm_pool] at hs
  obtain ⟨r', hr', -⟩ := map_eq_ok_iff.mp hs
  exact ⟨r', hr'⟩

theorem exists_pte (h : Builds img r₀ sz pd r) {a : ℕ} (ha : a < sz) :
    ∃ e, pd.pte (a / pgSize) = some e := by
  have hlt : a / pgSize * pgSize < sz := lt_of_le_of_lt (Nat.div_mul_le_self a pgSize) ha
  exact Option.isSome_iff_exists.mp
    ((h.space.laid _ (PageDir.lt_userPages hlt h.space.size)).mpr hlt)

theorem readi_within {off n : ℕ} (h : off + n ≤ c.length) (hc : c.length < 2 ^ 32) :
    ∃ bs, FileBytes.readi c (BitVec.ofNat 32 off) (BitVec.ofNat 32 n) = some bs ∧
      bs.length = n := by
  have hoff : (BitVec.ofNat 32 off).toNat = off := Nat.mod_eq_of_lt (by omega)
  have hn : (BitVec.ofNat 32 n).toNat = n := Nat.mod_eq_of_lt (by omega)
  refine ⟨(c.drop off).take n, ?_, ?_⟩
  · rw [FileBytes.readi, hoff, hn, if_neg (by omega)]
  · rw [List.length_take, List.length_drop]
    omega

theorem loadLoop (h : Builds img r₀ sz pd r) {m j : ℕ}
    (hend : m = 0 ∨ addr.toNat + (j + m - 1) * pgSize < sz) : ∃ b r',
      Ram.loadLoop pd addr c offset filesz m j r = .ok (b, r') ∧ Builds img r₀ sz pd r' ∧
        (j + m = (filesz.toNat + pgSize - 1) / pgSize → offset.toNat + filesz.toNat ≤ c.length →
          c.length < 2 ^ 32 → b = true) := by
  induction m generalizing j r with
  | zero => exact ⟨true, r, rfl, h, fun _ _ _ ↦ rfl⟩
  | succ m ih =>
    have hsz := h.space.size
    have hend := hend.resolve_left (Nat.succ_ne_zero m)
    have hpage : (addr + BitVec.ofNat 32 (j * pgSize)).toNat < sz := by
      rw [BitVec.toNat_add, BitVec.toNat_ofNat]
      rw [pgSize, kernBase] at *
      omega
    obtain ⟨e, he⟩ := h.exists_pte hpage
    have hlt : (addr + BitVec.ofNat 32 (j * pgSize)).toNat / pgSize * pgSize < sz :=
      lt_of_le_of_lt (Nat.div_mul_le_self _ pgSize) hpage
    have htable : ¬(pd.table ((addr + BitVec.ofNat 32 (j * pgSize)).toNat / pgSize
        / npdEntries)).isNone := by
      rw [Option.isNone_iff_eq_none]
      exact Option.isSome_iff_ne_none.mp (h.space.laid.table hsz hlt)
    have hstore : ∀ bs, Builds img r₀ sz pd (r.memmove (p2v e.pa) 0 bs) := fun bs ↦ by
      refine h.write rfl fun v hv ↦ Ram.memmove_frame_of_ne ?_ _ _
      rintro rfl
      exact hv (PageDir.mem_pages_of_pte (PageDir.lt_userPages hlt hsz) he)
    rw [Ram.loadLoop, if_neg htable]
    simp only [he, Option.map_some, Option.getD_some]
    -- the page is read whole where the file has it
    have hread : j + (m + 1) = (filesz.toNat + pgSize - 1) / pgSize →
        offset.toNat + filesz.toNat ≤ c.length → c.length < 2 ^ 32 → ∃ bs,
          FileBytes.readi c (offset + BitVec.ofNat 32 (j * pgSize))
            (BitVec.ofNat 32 (min (filesz.toNat - j * pgSize) pgSize)) = some bs ∧
          bs.length = min (filesz.toNat - j * pgSize) pgSize := by
      intro hm hle hc
      have hj : j * pgSize < filesz.toNat := by
        rw [pgSize] at hm ⊢
        omega
      have hle : offset.toNat + j * pgSize + min (filesz.toNat - j * pgSize) pgSize ≤ c.length := by
        omega
      have hpart := readi_within hle hc
      rwa [BitVec.ofNat_add, BitVec.ofNat_toNat, BitVec.setWidth_eq] at hpart
    split
    · next hbs =>
      refine ⟨false, r, rfl, h, fun hm hle hc ↦ ?_⟩
      obtain ⟨bs, hbs', -⟩ := hread hm hle hc
      rw [hbs] at hbs'
      cases hbs'
    · next bs hbs =>
      split
      · next hlen =>
        refine ⟨false, _, rfl, hstore bs, fun hm hle hc ↦ ?_⟩
        obtain ⟨bs', hbs', hlen'⟩ := hread hm hle hc
        rw [hbs] at hbs'
        cases hbs'
        exact absurd hlen' hlen
      · have hend' : m = 0 ∨ addr.toNat + (j + 1 + m - 1) * pgSize < sz := by
          rcases Nat.eq_zero_or_pos m with hm | hm
          · exact .inl hm
          · refine .inr ?_
            rwa [show j + 1 + m - 1 = j + (m + 1) - 1 by omega]
        obtain ⟨b, r', hload, hb, htrue⟩ := ih (hstore bs) hend'
        exact ⟨b, r', hload, hb, fun hm ↦ htrue (by omega)⟩

theorem loaduvm (h : Builds img r₀ sz pd r) (haligned : ¬addr.toNat % pgSize ≠ 0)
    (hend : addr.toNat + filesz.toNat ≤ sz) : ∃ b r',
      r.loaduvm pd addr c offset filesz = .ok (b, r') ∧ Builds img r₀ sz pd r' ∧
        (offset.toNat + filesz.toNat ≤ c.length → c.length < 2 ^ 32 → b = true) := by
  have hlast : (filesz.toNat + pgSize - 1) / pgSize = 0 ∨
      addr.toNat + (0 + (filesz.toNat + pgSize - 1) / pgSize - 1) * pgSize < sz := by
    rw [pgSize] at *
    omega
  rw [Ram.loaduvm, if_neg haligned]
  obtain ⟨b, r', hload, hb, htrue⟩ := h.loadLoop hlast
  exact ⟨b, r', hload, hb, htrue (Nat.zero_add _)⟩

theorem end_le_of_proghdr {ph : Proghdr} (hmemsz : ¬ph.memsz < ph.filesz)
    (hwrap : ¬ph.vaddr + ph.memsz < ph.vaddr) :
    ph.vaddr.toNat + ph.filesz.toNat ≤ (ph.vaddr + ph.memsz).toNat := by
  rw [BitVec.lt_def, BitVec.toNat_add] at hwrap
  rw [BitVec.lt_def] at hmemsz
  rw [BitVec.toNat_add]
  omega

/-- **The segments are loaded, or the loading stops**, whatever the headers say. -/
theorem loadSegments (h : Builds img r₀ sz pd r) (k : ℕ) (off : Word) : ∃ o pd' r',
    r.loadSegments img c k off sz pd = .ok (o, pd', r') ∧
      ∃ sz', Builds img r₀ sz' pd' r' ∧ (o = none ∨ o = some sz') := by
  induction k generalizing off sz pd r with
  | zero => exact ⟨some sz, pd, r, rfl, sz, h, .inr rfl⟩
  | succ k ih =>
    have hbad : ∃ o pd' r', (.ok (none, pd, r) : Except VmPanic (Option ℕ × PageDir × Ram))
        = .ok (o, pd', r') ∧ ∃ sz', Builds img r₀ sz' pd' r' ∧ (o = none ∨ o = some sz') :=
      ⟨none, pd, r, rfl, sz, h, .inl rfl⟩
    rw [Ram.loadSegments]
    split
    · exact hbad
    · next ph hph =>
      dsimp only
      split
      · exact ih h _
      · split
        · exact hbad
        · next hmemsz =>
          split
          · exact hbad
          · next hwrap =>
            obtain ⟨size, pd₁, r₁, halloc, -, hcase⟩ := h.allocuvm (ph.vaddr + ph.memsz).toNat
            rw [halloc, ok_bind]
            rcases hcase with ⟨rfl, h₁⟩ | ⟨rfl, h₁⟩
            · split
              · exact ⟨none, pd₁, r₁, rfl, _, h₁, .inl rfl⟩
              · split
                · exact ⟨none, pd₁, r₁, rfl, _, h₁, .inl rfl⟩
                · next haligned =>
                  have hend := (end_le_of_proghdr hmemsz hwrap).trans (le_max_right sz _)
                  obtain ⟨b, r₂, hload, h₂, -⟩ := h₁.loaduvm haligned hend
                  rw [hload, ok_bind]
                  cases b with
                  | false => exact ⟨none, pd₁, r₂, rfl, _, h₂, .inl rfl⟩
                  | true => exact ih h₂ _
            · exact ⟨none, pd₁, r₁, rfl, sz, h₁, .inl rfl⟩

theorem round (h : Builds img r₀ sz pd r) : Builds img r₀ (pgRoundUp sz) pd r :=
  ⟨h.space.round, h.kernelOnly, h.account, h.frame⟩

theorem execStack_cases (h : Builds img r₀ sz pd r) (argv : List UserString) :
    (∃ pd₁ r₁, r.execStack img argv sz pd = .ok (none, pd₁, r₁) ∧
      Builds img r₀ (pgRoundUp sz) pd₁ r₁) ∨
    ∃ pd₁ pd₂ r₁, pd.Carries r pd₁ r₁ ∧ Builds img r₀ (pgRoundUp sz + 2 * pgSize) pd₁ r₁ ∧
      Builds img r₀ (pgRoundUp sz + 2 * pgSize) pd₂ r₁ ∧
      pd₂.pte = Function.update pd₁.pte (pgRoundUp sz / pgSize)
        ((pd₁.pte (pgRoundUp sz / pgSize)).map fun e ↦
          { e with perm := { e.perm with u := false } }) ∧
      r.execStack img argv sz pd = (r₁.execArgs pd₂ argv (pgRoundUp sz + 2 * pgSize)).map fun x ↦
        (x.1.map fun sp ↦ (pgRoundUp sz + 2 * pgSize, sp), pd₂, x.2) := by
  obtain ⟨size, pd₁, r₁, halloc, hcarries, hcase⟩ := h.round.allocuvm (pgRoundUp sz + 2 * pgSize)
  rw [max_eq_right (Nat.le_add_right _ _)] at hcase
  rcases hcase with ⟨rfl, h₁⟩ | ⟨rfl, h₁⟩
  · obtain ⟨pd₂, hclear, h₂, hpte⟩ := h₁.clearpteu
      (n := (pgRoundUp sz + 2 * pgSize - 2 * pgSize) / pgSize) (by rw [pgSize]; omega)
    refine .inr ⟨pd₁, pd₂, r₁, hcarries, h₁, h₂, ?_, ?_⟩
    · rwa [Nat.add_sub_cancel] at hpte
    · rw [Ram.execStack, halloc, ok_bind]
      dsimp only
      rw [if_neg (by rw [pgSize]; omega), hclear, ok_bind]
      cases r₁.execArgs pd₂ argv (pgRoundUp sz + 2 * pgSize) <;> rfl
  · refine .inl ⟨pd₁, r₁, ?_, h₁⟩
    rw [Ram.execStack, halloc]
    rfl

theorem execStack {o : Option (ℕ × Word)} (h : Builds img r₀ sz pd r)
    (hstack : r.execStack img argv sz pd = .ok (o, pd', r')) :
    ∃ sz', Builds img r₀ sz' pd' r' ∧ ∀ x, o = some x → x.1 = sz' := by
  rcases h.execStack_cases argv with ⟨pd₁, r₁, heq, h₁⟩ | ⟨pd₁, pd₂, r₁, -, -, h₂, -, heq⟩
  · rw [hstack] at heq
    cases heq
    exact ⟨_, h₁, fun x hx ↦ by cases hx⟩
  · rw [hstack] at heq
    obtain ⟨⟨sp, r₂⟩, hargs, heq⟩ := map_eq_ok_iff.mp heq.symm
    cases heq
    refine ⟨_, h₂.execArgs hargs, fun x hx ↦ ?_⟩
    obtain ⟨sp', -, rfl⟩ := Option.map_eq_some_iff.mp hx
    rfl

end Builds

/-! ## The exits -/

section Exits

variable {img : KernelImage} {s s' : ExecState} {r₀ : Ram} {ret : Word}

theorem execBad_restores (s : ExecState) {pgdir : Option PageDir} (ip : Bool)
    (hnone : pgdir = none → Restored r₀ s.ram)
    (hsome : ∀ pd, pgdir = some pd → ∃ sz, Builds img r₀ sz pd s.ram) : ∃ r',
      execBad img pgdir ip s =
        .ok (-1, if ip then ({ s with ram := r' } : ExecState).iunlockput.endOp
        else { s with ram := r' }) ∧ Restored r₀ r' := by
  cases pgdir with
  | none =>
    refine ⟨s.ram, ?_, hnone rfl⟩
    cases ip <;> rfl
  | some pd =>
    obtain ⟨sz, hb⟩ := hsome pd rfl
    obtain ⟨r', hr', hrestored⟩ := hb.freevm
    refine ⟨r', bind_eq_ok_iff.mpr ⟨r', hr', ?_⟩, hrestored⟩
    cases ip <;> rfl

/-- What a call of `exec` that succeeds has done, step by step. -/
structure ExecRun (img : KernelImage) (path : List Byte) (c : FileData) (argv : List UserString)
    (s s' : ExecState) where
  elf : Elfhdr
  pd₀ : PageDir
  r₀ : Ram
  sz₁ : ℕ
  pd₁ : PageDir
  r₁ : Ram
  sz : ℕ
  sp : Word
  pd : PageDir
  r : Ram
  readElf : readElfhdr c.bytes = some elf
  setup : s.ram.setupkvm img = .ok (some pd₀, r₀)
  start : Builds img s.ram 0 pd₀ r₀
  load : r₀.loadSegments img c.bytes elf.phnum.toNat elf.phoff 0 pd₀ = .ok (some sz₁, pd₁, r₁)
  loaded : Builds img s.ram sz₁ pd₁ r₁
  stack : r₁.execStack img argv sz₁ pd₁ = .ok (some (sz, sp), pd, r)
  built : Builds img s.ram sz pd r
  free : r.freevm img.kend s.proc.pgdir = .ok s'.ram
  proc : s'.proc = ⟨pd, sz, (lastName path).take 15, elf.entry, sp⟩

/-- **The outcomes of `exec`**: it gives everything back, or it has run to its end. -/
theorem exec_cases {path : List Byte} {file : Option FileData}
    (hl : Ledger img.kend s.ram.pool.free) (h : exec img path file argv s = .ok (ret, s')) :
    (ret = -1 ∧ ∃ r', Restored s.ram r' ∧
      s' = { s with ram := r', locked := if file.isSome then false else s.locked }) ∨
    ret = 0 ∧ ∃ c, file = some c ∧ Nonempty (ExecRun img path c argv s s') := by
  cases file with
  | none =>
    cases h
    exact .inl ⟨rfl, s.ram, .refl _, rfl⟩
  | some c =>
    -- the exits with the inode held, and without
    have hheld : ∀ {pgdir r}, (pgdir = none → Restored s.ram r) →
        (∀ pd, pgdir = some pd → ∃ sz, Builds img s.ram sz pd r) →
        execBad img pgdir true { s.beginOp.nameiLock with ram := r } = .ok (ret, s') →
        ret = -1 ∧ ∃ r', Restored s.ram r' ∧ s' = { s with ram := r', locked := false } := by
      intro pgdir r hnone hsome h
      obtain ⟨r', hbad, hrestored⟩ := execBad_restores
        { s.beginOp.nameiLock with ram := r } true hnone hsome
      rw [h] at hbad
      cases hbad
      exact ⟨rfl, r', hrestored, rfl⟩
    have hreleased : ∀ {pd r}, (∃ sz, Builds img s.ram sz pd r) →
        execBad img (some pd) false { s.beginOp.nameiLock.iunlockput.endOp with ram := r }
          = .ok (ret, s') →
        ret = -1 ∧ ∃ r', Restored s.ram r' ∧ s' = { s with ram := r', locked := false } := by
      intro pd r hsome h
      obtain ⟨r', hbad, hrestored⟩ := execBad_restores
        { s.beginOp.nameiLock.iunlockput.endOp with ram := r } false
        (fun h : some pd = none ↦ by cases h) fun pd' hpd' ↦ by
          cases hpd'
          exact hsome
      rw [h] at hbad
      cases hbad
      exact ⟨rfl, r', hrestored, rfl⟩
    rw [exec] at h
    dsimp only at h
    split at h
    · exact .inl (hheld (fun _ ↦ .refl _) (fun _ h ↦ by cases h) h)
    · next elf helf =>
      obtain ⟨⟨o, r₀⟩, hsetup, h⟩ := bind_eq_ok_iff.mp h
      obtain ⟨o', r₀', hsetup', hnone, hsome⟩ := Builds.setupkvm hl
      have heq := hsetup.symm.trans hsetup'
      cases heq
      cases o with
      | none => exact .inl (hheld (fun _ ↦ hnone rfl) (fun _ h ↦ by cases h) h)
      | some pd₀ =>
        have h₀ := hsome pd₀ rfl
        obtain ⟨⟨o, pd₁, r₁⟩, hload, h⟩ := bind_eq_ok_iff.mp h
        obtain ⟨o', pd₁', r₁', hload', sz₁, h₁, ho⟩ := h₀.loadSegments (c := c.bytes)
          elf.phnum.toNat elf.phoff
        rw [hload] at hload'
        cases hload'
        cases o with
        | none =>
          refine .inl (hheld (fun h ↦ by cases h) (fun pd hpd ↦ ?_) h)
          cases hpd
          exact ⟨sz₁, h₁⟩
        | some sz =>
          obtain rfl : sz = sz₁ := Option.some.inj (ho.resolve_left (Option.some_ne_none _))
          obtain ⟨⟨o, pd₂, r₂⟩, hstack, h⟩ := bind_eq_ok_iff.mp h
          obtain ⟨sz₂, h₂, hsz⟩ := h₁.execStack hstack
          cases o with
          | none => exact .inl (hreleased ⟨sz₂, h₂⟩ h)
          | some x =>
            obtain ⟨sz', sp⟩ := x
            obtain rfl : sz' = sz₂ := hsz _ rfl
            obtain ⟨r₃, hfree, h⟩ := bind_eq_ok_iff.mp h
            cases h
            exact .inr ⟨rfl, c, rfl, ⟨⟨elf, pd₀, r₀, sz, pd₁, r₁, sz', sp, pd₂, r₂, helf, hsetup,
              h₀, hload, h₁, hstack, h₂, hfree, rfl⟩⟩⟩

end Exits

/-! ## The kernel that counts pages -/

def segmentReads (c : List Byte) (offset sz : Word) (j : ℕ) : Bool :=
  (FileBytes.readi c (offset + BitVec.ofNat 32 (j * pgSize))
    (BitVec.ofNat 32 (min (sz.toNat - j * pgSize) pgSize))).any
    fun bs ↦ bs.length = min (sz.toNat - j * pgSize) pgSize

/-- What is read of the program headers. -/
def progHdrs (c : List Byte) : ℕ → Word → List ProgHdr
  | 0, _ => []
  | k + 1, off =>
    match readProghdr c off with
    | none => [⟨false, false, 0, 0, 0, fun _ ↦ false⟩]
    | some ph => ⟨true, ph.type = elfProgLoad, ph.vaddr, ph.filesz, ph.memsz,
        segmentReads c ph.off ph.filesz⟩ :: progHdrs c k (off + BitVec.ofNat 32 Proghdr.size)

namespace Ram

variable {img : KernelImage} {r r' : Ram} {pd pd' : PageDir} {c : List Byte} {size : ℕ}

theorem loadLoop_pool {addr offset sz : Word} (m : ℕ) : ∀ (j : ℕ) (r : Ram),
    (loadLoop pd addr c offset sz m j r).map (Prod.map id Ram.pool) =
      (pd.loadLoop addr (segmentReads c offset sz) m j).map (·, r.pool) := by
  induction m with
  | zero => exact fun _ _ ↦ rfl
  | succ m ih =>
    intro j r
    rw [loadLoop, PageDir.loadLoop, segmentReads]
    dsimp only
    split
    · rfl
    · cases FileBytes.readi c (offset + BitVec.ofNat 32 (j * pgSize))
          (BitVec.ofNat 32 (min (sz.toNat - j * pgSize) pgSize)) with
      | none => rfl
      | some bs =>
        by_cases hlen : bs.length = min (sz.toNat - j * pgSize) pgSize
        · simp only [hlen, Option.any_some, decide_true, Bool.not_true, ne_eq, not_true_eq_false,
            if_false, Bool.false_eq_true]
          exact ih _ _
        · simp only [hlen, Option.any_some, decide_false, Bool.not_false, ne_eq, not_false_eq_true,
            if_true]
          rfl

theorem loaduvm_pool {addr offset sz : Word} :
    (r.loaduvm pd addr c offset sz).map (Prod.map id Ram.pool) =
      (pd.loaduvm addr sz (segmentReads c offset sz)).map (·, r.pool) := by
  rw [loaduvm, PageDir.loaduvm]
  split
  · rfl
  · exact loadLoop_pool _ _ _

theorem loadSegments_pool (k : ℕ) : ∀ (off : Word) (sz : ℕ) (pd : PageDir) (r : Ram),
    (r.loadSegments img c k off sz pd).map (Prod.map id (Prod.map id Ram.pool)) =
      Kernel.loadSegments img sz pd r.pool (progHdrs c k off) := by
  induction k with
  | zero => exact fun _ _ _ _ ↦ rfl
  | succ k ih =>
    intro off sz pd r
    rw [loadSegments, progHdrs]
    cases readProghdr c off with
    | none => rfl
    | some ph =>
      rw [Kernel.loadSegments]
      by_cases hload : ph.type = elfProgLoad
      · simp only [hload, ne_eq, not_true_eq_false, if_false, decide_true, Bool.not_true,
          Bool.false_eq_true]
        split
        · rfl
        split
        · rfl
        refine map_bind_of allocuvm_pool fun x ↦ ?_
        dsimp only [Prod.map, id]
        split
        · rfl
        split
        · rfl
        refine map_bind_of_map loaduvm_pool fun y b heq ↦ ?_
        obtain ⟨rfl, hpool⟩ := Prod.mk.inj heq
        dsimp only [id]
        split
        · rw [← hpool]
          rfl
        · rw [← hpool]
          exact ih _ _ _ _
      · simp only [hload, ne_eq, not_false_eq_true, if_true, decide_false, Bool.not_false,
          Bool.not_true, Bool.false_eq_true, if_false]
        exact ih _ _ _ _

theorem execStack_pool {sz : ℕ} {sp : Word} (hkernel : pd.KernelOnly)
    (h : r.execStack img argv sz pd = .ok (some (size, sp), pd', r')) :
    Kernel.execStack img true sz pd r.pool = .ok (some size, pd', r'.pool) := by
  obtain ⟨⟨size₁, pd₁, r₁⟩, halloc, h⟩ := bind_eq_ok_iff.mp h
  have hpool := pool_of_allocuvm halloc
  dsimp only at h
  split at h
  · cases h
  · next hsize =>
    obtain ⟨pd₂, hclear, h⟩ := bind_eq_ok_iff.mp h
    obtain ⟨⟨o, r₂⟩, hargs, h⟩ := bind_eq_ok_iff.mp h
    have hkernel₂ := (hkernel.allocuvm hpool).clearpteu hclear
    have hpool₂ : r₂.pool = r₁.pool := execArgs_keeps (P := fun r ↦ r.pool = r₁.pool)
      (fun hc h ↦ (copyout_within hkernel₂ hc).1.trans h) rfl hargs
    cases o with
    | none => cases h
    | some sp =>
      cases h
      refine bind_eq_ok_iff.mpr ⟨_, hpool, ?_⟩
      dsimp only
      rw [if_neg hsize, hclear, hpool₂]
      rfl

end Ram

/-- **A call of `exec` that succeeds is one of the kernel that counts pages.** -/
theorem exec_pool {img : KernelImage} {path : List Byte} {file : Option FileData}
    {s s' : ExecState} {k : Kernel} {q : VmProc} (hl : Ledger img.kend s.ram.pool.free)
    (h : exec img path file argv s = .ok (0, s')) (hr : k.pool = s.ram.pool)
    (hq : q.pgdir = s.proc.pgdir) (p : Fin nproc) :
    ∃ c elf, file = some c ∧ readElfhdr c.bytes = some elf ∧
      k.exec img p q ⟨true, progHdrs c.bytes elf.phnum.toNat elf.phoff, true⟩ =
        .ok (k.put p (some { q with pgdir := s'.proc.pgdir, sz := s'.proc.sz }) s'.ram.pool) := by
  obtain ⟨-, c, hfile, ⟨e⟩⟩ := (exec_cases hl h).resolve_left fun h ↦ absurd h.1 (by decide)
  have hsetup := congrArg (Except.map (Prod.map id Ram.pool)) e.setup
  have hload := congrArg (Except.map (Prod.map id (Prod.map id Ram.pool))) e.load
  have hfree := congrArg (Except.map Ram.pool) e.free
  rw [Ram.setupkvm_pool] at hsetup
  rw [Ram.loadSegments_pool] at hload
  rw [Ram.freevm_pool] at hfree
  refine ⟨c, e.elf, hfile, e.readElf, bind_eq_ok_iff.mpr
    ⟨(some (e.sz, e.pd), e.r.pool), ?_, ?_⟩⟩
  · rw [hr]
    exact bind_eq_ok_iff.mpr ⟨_, hsetup, bind_eq_ok_iff.mpr ⟨_, hload,
      bind_eq_ok_iff.mpr ⟨_, Ram.execStack_pool e.loaded.kernelOnly e.stack, rfl⟩⟩⟩
  · dsimp only
    rw [hq, hfree, e.proc]
    rfl

/-- **A failed `exec` changes nothing.** The process has its memory, its name and its registers, the
pages that were free are free, the inode is not locked and has the references it had, and the
transaction is closed. -/
theorem exec_failed {img : KernelImage} {path : List Byte} {file : Option FileData}
    {argv : List UserString} {s s' : ExecState} (hl : Ledger img.kend s.ram.pool.free)
    (hown : ∀ n e, n < userPages → s.proc.pgdir.pte n = some e → p2v e.pa ∉ s.ram.pool.free)
    (h : exec img path file argv s = .ok (-1, s')) :
    s'.proc = s.proc ∧
    (∀ n e, n < userPages → s.proc.pgdir.pte n = some e →
      s'.ram.frame (p2v e.pa) = s.ram.frame (p2v e.pa)) ∧
    s'.ram.pool.free.Perm s.ram.pool.free ∧
    (file.isSome → s'.locked = false) ∧ s'.ref = s.ref ∧ s'.outstanding = s.outstanding := by
  rcases exec_cases hl h with ⟨-, r', hrestored, rfl⟩ | ⟨hret, -⟩
  · refine ⟨rfl, fun n e hn he ↦ hrestored.frame _ (hown n e hn he), hrestored.perm, fun hfile ↦ ?_,
      rfl, rfl⟩
    exact if_pos hfile
  · exact absurd hret (by decide)

def cutElf : FileData :=
  ⟨[0x7F, 0x45, 0x4C, 0x46] ++ List.replicate 40 0 ++ 2 :: List.replicate 7 0, by decide⟩

theorem readElfhdr_cutElf : readElfhdr cutElf.bytes = some ⟨elfMagic, 0, 0, 2⟩ := by rfl

open Kernel in
/-- An ELF file that ends within its second program header is executed by a process with one page of
ones. -/
theorem exec_failed_memory : ∃ (img : KernelImage) (s s' : ExecState),
    exec img [] (some cutElf) [] s = .ok (-1, s') ∧ s'.proc = s.proc ∧
      s'.ram.frame (p2v 0) 7 = 1 ∧ s'.ram.pool.free.Perm somePages ∧ s'.ref = s.ref ∧
      s'.outstanding = s.outstanding := by
  obtain ⟨s, hs⟩ : ∃ s : ExecState, s = ⟨⟨⟨somePages, []⟩, fun _ _ ↦ 1⟩,
      ⟨onePage, pgSize, [], 0, 0⟩, false, 1, 0⟩ := ⟨_, rfl⟩
  have hpool : s.ram.pool = ⟨somePages, []⟩ := by rw [hs]
  have hl : Ledger someImage.kend s.ram.pool.free := hpool ▸ ledger_somePages
  have hown : ∀ n e, n < userPages → s.proc.pgdir.pte n = some e → p2v e.pa ∉ s.ram.pool.free := by
    rw [hs]
    exact fun n e _ ↦ notMem_somePages_of_onePage
  obtain ⟨pd, s₀, hpd, -⟩ := exists_setupkvm_somePages
  obtain ⟨o, r₀, hsetup, -, hbuilds⟩ := Builds.setupkvm hl
  rw [← hpool, ← Ram.setupkvm_pool, hsetup] at hpd
  obtain ⟨rfl, -⟩ := Prod.mk.inj (Except.ok.inj hpd)
  obtain ⟨r', hfree, -⟩ := (hbuilds pd rfl).freevm
  have hexec : exec someImage [] (some cutElf) [] s =
      .ok (-1, { s with ram := r', locked := false }) := by
    rw [exec]
    simp only [readElfhdr_cutElf]
    refine bind_eq_ok_iff.mpr ⟨_, hsetup, bind_eq_ok_iff.mpr ⟨(none, pd, r₀), rfl, ?_⟩⟩
    exact bind_eq_ok_iff.mpr ⟨r', hfree, by rw [hs]; rfl⟩
  obtain ⟨hproc, hframe, hperm, -, href, hout⟩ := exec_failed hl hown hexec
  have hbyte := congrFun (hframe 0 ⟨0, true, true⟩ (by rw [userPages]; decide) (by rw [hs]; rfl)) 7
  refine ⟨someImage, s, _, hexec, hproc, hbyte.trans ?_, ?_, href, hout⟩
  · rw [hs]
  · rwa [hpool] at hperm

end OperatingSystems
