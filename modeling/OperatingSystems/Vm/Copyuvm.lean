import OperatingSystems.Vm.Lineage
import OperatingSystems.Vm.Untouched

/-!
# A copy of an address space

What `copyuvm` delivers to `fork`: a directory that maps the same addresses with the same
permissions to pages of its own with the same bytes, and nothing else below `KERNBASE`. If it runs
out of memory, in the tables of the kernel half or of the user half or in the pages themselves, all
that it took is free again. The parent is as it was in either case.

A size above `KERNBASE` cannot be copied. The first page behind it is the kernel's in every
directory, and mapping it again is a panic, unless the memory runs out before.
-/

namespace OperatingSystems

open Function

variable {m : ℕ}

namespace PageDir

variable {img : KernelImage} {pd pd' d src : PageDir} {s s' : Pool} {b : Bool} {n k sz : ℕ}
  {pa : BitVec 32} {perm : Perm}

/-! ## The kernel half is there -/

theorem isSome_setPte {e : Pte} (h : (pd.pte m).isSome) :
    ((pd.setPte n (some e)).pte m).isSome := by
  by_cases htable : (pd.table (n / npdEntries)).isSome
  · rw [pte_setPte htable]
    by_cases hm : m = n
    · rw [hm, update_self]
      rfl
    · rwa [update_of_ne hm]
  · have hpte : (pd.setPte n (some e)).pte = pd.pte := if_neg htable
    rwa [hpte]

theorem isSome_mapLoop (h : pd.mapLoop n pa perm s k = .ok (b, pd', s')) (hm : (pd.pte m).isSome) :
    (pd'.pte m).isSome :=
  mapLoop_keeps (P := fun _ pd _ ↦ (pd.pte m).isSome) (fun _ _ hw h ↦ by rwa [walkpgdir_pte hw])
    (fun _ _ _ h ↦ isSome_setPte h) hm h

theorem isSome_of_mapLoop (h : pd.mapLoop n pa perm s (k + 1) = .ok (true, pd', s')) :
    (pd'.pte n).isSome := by
  rw [mapLoop] at h
  split at h
  · cases h
  · next pd₁ s₁ hw =>
    split at h
    · cases h
    · refine isSome_mapLoop h ?_
      rw [pte_setPte (walkpgdir_table hw), update_self]
      rfl

theorem isSome_userPages_setupkvm (h : setupkvm img s = .ok (some pd, s')) :
    (pd.pte userPages).isSome := by
  rcases setupkvm_cases h with ⟨hr, -⟩ | ⟨p, s₁, b, pd₁, s₂, -, hmap, ⟨rfl, hr, -⟩ | ⟨-, hr, -⟩⟩
  · cases hr
  · cases hr
    rw [kmap] at hmap
    obtain ⟨⟨b₁, pd₁, s₃⟩, hline, hmap⟩ := bind_eq_ok_iff.mp hmap
    cases b₁ with
    | false => cases hmap
    | true =>
      refine mapKernel_keeps (P := fun _ pd _ ↦ (pd.pte userPages).isSome)
        (fun _ _ _ _ _ _ _ hmap ↦ isSome_mapLoop hmap) ?_ hmap
      have hbase : userPages = kernBase / pgSize := by rw [userPages]
      rw [hbase]
      exact isSome_of_mapLoop hline
  · cases hr

end PageDir

namespace Ram

variable {img : KernelImage} {r r' : Ram} {pd d d' src : PageDir} {n sz : ℕ} {o : Option PageDir}

theorem pool_of_copyuvm (h : r.copyuvm img pd sz = .ok (o, r')) :
    pd.copyuvm img sz r.pool = .ok (o, r'.pool) := by
  rw [← copyuvm_pool, h]
  rfl

theorem copyLoop_high (hsz : kernBase < sz) (hd : (d.pte userPages).isSome) (hn : n ≤ userPages)
    (h : copyLoop img src sz d n r = .ok (o, r')) :
    o = none ∧ (r'.pool.free : Multiset (BitVec 32)) = d.account r.pool := by
  fun_induction copyLoop img src sz d n r with
  | case1 d n r hlt htable => cases h
  | case2 d n r hlt htable hpte => cases h
  | case3 d n r hlt htable e he s hs =>
    obtain ⟨r₁, hfreevm, h⟩ := bind_eq_ok_iff.mp h
    cases h
    have hpool : d.freevm img.kend s = .ok r'.pool := by
      rw [← withPool_pool r s, ← freevm_pool, hfreevm]
      rfl
    refine ⟨rfl, (PageDir.freevm_spec hpool).trans ?_⟩
    rw [PageDir.account, PageDir.account, Pool.free_of_kalloc_none hs]
  | case4 d n r hlt htable e he mem s hs r₁ ih =>
    obtain ⟨⟨b, d₁, s₁⟩, hmap, h⟩ := bind_eq_ok_iff.mp h
    rcases hn.lt_or_eq with hn | rfl
    · have hacc := PageDir.account_of_map hn (Pool.free_of_kalloc hs) hmap
      have hpte := PageDir.pte_of_mappages (PageDir.lt_vpages hn) hmap
      cases b with
      | true =>
        have hd₁ : (d₁.pte userPages).isSome := by
          rwa [hpte, if_pos rfl, update_of_ne hn.ne']
        obtain ⟨ho, hfree⟩ := ih d₁ s₁ hd₁ hn h
        exact ⟨ho, hfree.trans ((add_zero _).symm.trans hacc)⟩
      | false =>
        obtain ⟨r₂, hkfree, h⟩ := bind_eq_ok_iff.mp h
        obtain ⟨r₃, hfreevm, h⟩ := bind_eq_ok_iff.mp h
        cases h
        have hpool : s₁.kfree img.kend mem = .ok r₂.pool := by
          rw [← withPool_pool r₁ s₁, ← kfree_pool, hkfree]
          rfl
        have hpool' : d₁.freevm img.kend r₂.pool = .ok r'.pool := by
          rw [← freevm_pool, hfreevm]
          rfl
        refine ⟨rfl, (PageDir.freevm_spec hpool').trans ?_⟩
        rw [PageDir.account, Pool.kfree_eq_ok hpool, ← hacc, if_neg Bool.false_ne_true,
          ← Multiset.cons_coe, ← Multiset.singleton_add, add_assoc, add_comm]
        rfl
    · -- the page at `KERNBASE` is there
      have hv : userPages < PageDir.vpages := by
        rw [userPages, PageDir.vpages, npdEntries]
        decide
      rw [PageDir.mappages_one hv, PageDir.mapLoop] at hmap
      split at hmap
      · next d₂ s₂ hw =>
        have hsome : (d.table (userPages / npdEntries)).isSome := by
          rw [Option.isSome_iff_ne_none] at hd ⊢
          exact fun hnone ↦ hd (d.absent _ hnone)
        rw [PageDir.walkpgdir, if_pos hsome] at hw
        cases hw
      · next d₂ s₂ hw =>
        rw [PageDir.walkpgdir_pte hw, if_pos hd] at hmap
        cases hmap
  | case5 d n r hge =>
    refine absurd ?_ hge
    rw [userPages, pgSize, kernBase] at *
    omega

theorem free_of_copyuvm_none (h : r.copyuvm img pd sz = .ok (none, r')) :
    (r'.pool.free : Multiset (BitVec 32)) = r.pool.free := by
  have hpool := pool_of_copyuvm h
  by_cases hsz : sz ≤ kernBase
  · exact (add_zero _).symm.trans (PageDir.copyuvm_spec hsz hpool)
  · obtain ⟨⟨o, r₁⟩, hsetup, h⟩ := bind_eq_ok_iff.mp h
    have hsetup' : PageDir.setupkvm img r.pool = .ok (o, r₁.pool) := by
      rw [← setupkvm_pool, hsetup]
      rfl
    have hacc := PageDir.setupkvm_spec hsetup'
    cases o with
    | none =>
      cases h
      exact (add_zero _).symm.trans hacc
    | some d =>
      have hd := PageDir.isSome_userPages_setupkvm hsetup'
      exact (copyLoop_high (not_le.mp hsz) hd (Nat.zero_le _) h).2.trans hacc

theorem le_kernBase_of_copyuvm (h : r.copyuvm img pd sz = .ok (some d, r')) : sz ≤ kernBase := by
  by_contra hsz
  obtain ⟨⟨o, r₁⟩, hsetup, h⟩ := bind_eq_ok_iff.mp h
  have hsetup' : PageDir.setupkvm img r.pool = .ok (o, r₁.pool) := by
    rw [← setupkvm_pool, hsetup]
    rfl
  cases o with
  | none => cases h
  | some d₀ =>
    have hd := PageDir.isSome_userPages_setupkvm hsetup'
    have hnone := (copyLoop_high (not_le.mp hsz) hd (Nat.zero_le _) h).1
    cases hnone

theorem untouched_copyuvm (h : r.copyuvm img pd sz = .ok (o, r')) : Untouched r r' := by
  obtain ⟨⟨o₁, r₁⟩, hsetup, h⟩ := bind_eq_ok_iff.mp h
  cases o₁ with
  | none =>
    cases h
    exact untouched_setupkvm hsetup
  | some d => exact (takes_setupkvm hsetup).trans_untouched (copyLoop_contents h).1

theorem copyuvm_contents (hnodup : r.pool.free.Nodup)
    (hown : ∀ n e, n < userPages → pd.pte n = some e → p2v e.pa ∉ r.pool.free)
    (h : r.copyuvm img pd sz = .ok (some d, r')) (hm : m * pgSize < sz) :
    ∃ e e', pd.pte m = some e ∧ d.pte m = some e' ∧ e'.perm = e.perm ∧
      r'.frame (p2v e'.pa) = r.frame (p2v e.pa) := by
  have hsz := le_kernBase_of_copyuvm h
  obtain ⟨⟨o, r₁⟩, hsetup, h⟩ := bind_eq_ok_iff.mp h
  cases o with
  | none => cases h
  | some d₀ =>
    have htakes := takes_setupkvm hsetup
    have hsrc : ∀ m e, m * pgSize < sz → pd.pte m = some e → p2v e.pa ∉ r.pool.free :=
      fun m e hm he ↦ hown m e (PageDir.lt_userPages hm hsz) he
    obtain ⟨-, hall⟩ := (copyLoop_contents h).2 d rfl hsz (nodup_of_suffix hnodup htakes.suffix)
      fun m e hm he hmem ↦ hsrc m e hm he (htakes.suffix.subset hmem)
    rcases hall m with ⟨-, hnot⟩ | ⟨-, e', he', e, he, hperm, hframe⟩
    · exact absurd ⟨Nat.zero_le m, hm⟩ hnot
    · exact ⟨e, e', he, he', hperm, hframe.trans (htakes.frame _ (hsrc m e hm he))⟩

end Ram

/-- **`copyuvm` makes an independent copy.** Let no page below the size be missing, and none of the
parent's pages be free. Then `copyuvm` does not panic for a size below `KERNBASE`. If it returns a
directory, that maps every address of the parent with the same permissions to the same byte in a
page of its own, and nothing else below `KERNBASE`. If it returns 0, all pages it took are free
again. The memory of the parent is unchanged. -/
theorem copyuvm_copies {img : KernelImage} {pd : PageDir} {sz : ℕ} {r : Ram}
    (hpresent : ∀ n, n * pgSize < sz → (pd.pte n).isSome)
    (hfree : Ledger img.kend r.pool.free)
    (hown : ∀ n e, n < userPages → pd.pte n = some e → p2v e.pa ∉ r.pool.free) :
    (sz ≤ kernBase → ∃ o r', r.copyuvm img pd sz = .ok (o, r')) ∧
    ∀ o r', r.copyuvm img pd sz = .ok (o, r') →
      (∀ d, o = some d →
        (∀ a, a < pgRoundUp sz → ∃ e e', pd.pte (a / pgSize) = some e ∧
          d.pte (a / pgSize) = some e' ∧ e'.perm = e.perm ∧
          r'.frame (p2v e'.pa) (a % pgSize) = r.frame (p2v e.pa) (a % pgSize)) ∧
        (∀ n m e e', n < userPages → m < userPages → pd.pte n = some e → d.pte m = some e' →
          e'.pa ≠ e.pa) ∧
        ∀ n, n < userPages → ((d.pte n).isSome ↔ n * pgSize < pgRoundUp sz)) ∧
      (o = none → r'.pool.free.Perm r.pool.free) ∧
      ∀ n e, n < userPages → pd.pte n = some e → r'.frame (p2v e.pa) = r.frame (p2v e.pa) := by
  refine ⟨fun hsz ↦ ?_, fun o r' h ↦ ⟨fun d hd ↦ ?_, fun ho ↦ ?_, fun n e hn he ↦ ?_⟩⟩
  · cases h : r.copyuvm img pd sz with
    | ok x => exact ⟨x.1, x.2, rfl⟩
    | error e =>
      have hpool : pd.copyuvm img sz r.pool = .error e := by
        rw [← Ram.copyuvm_pool, h]
        rfl
      obtain ⟨-, m, hm, hnone⟩ := PageDir.copyuvm_error hsz hfree hpool
      have hsome := hpresent m hm
      rw [hnone] at hsome
      cases hsome
  · subst hd
    have hsz := Ram.le_kernBase_of_copyuvm h
    have hpool := Ram.pool_of_copyuvm h
    refine ⟨fun a ha ↦ ?_, fun n m e e' hn hm he he' hpa ↦ ?_, fun n hn ↦ ?_⟩
    · have hm : a / pgSize * pgSize < sz :=
        mul_pgSize_lt_pgRoundUp.mp (lt_of_le_of_lt (Nat.div_mul_le_self a pgSize) ha)
      obtain ⟨e, e', he, he', hperm, hframe⟩ :=
        Ram.copyuvm_contents (Multiset.coe_nodup.mp hfree.nodup) hown h hm
      exact ⟨e, e', he, he', hperm, congrFun hframe _⟩
    · -- a page of the copy was free, and no page of the parent's was
      refine hown n e hn he ?_
      rw [← hpa]
      have hmem : p2v e'.pa ∈ (r.pool.free : Multiset (BitVec 32)) := by
        rw [← PageDir.copyuvm_spec hsz hpool]
        exact Multiset.mem_add.mpr (.inr (PageDir.mem_pages_of_pte hm he'))
      exact hmem
    · exact (PageDir.laid_copyuvm hfree hsz hpool).round n hn
  · subst ho
    exact Multiset.coe_eq_coe.mp (Ram.free_of_copyuvm_none h)
  · refine Ram.untouched_copyuvm h _ (hown n e hn he) fun hmem ↦ hown n e hn he ?_
    -- the pages that are free afterwards were free before
    have hle : (r'.pool.free : Multiset (BitVec 32)) ≤ r.pool.free := by
      cases o with
      | none => exact (Ram.free_of_copyuvm_none h).le
      | some d =>
        rw [← PageDir.copyuvm_spec (Ram.le_kernBase_of_copyuvm h) (Ram.pool_of_copyuvm h)]
        exact Multiset.le_add_right _ _
    exact Multiset.mem_of_le hle hmem

open Kernel in
/-- A process with one page of ones is copied. -/
theorem copyuvm_copies_page : ∃ (img : KernelImage) (pd d : PageDir) (r r' : Ram) (e e' : Pte),
    r.copyuvm img pd pgSize = .ok (some d, r') ∧ pd.pte 0 = some e ∧ d.pte 0 = some e' ∧
      e'.pa ≠ e.pa ∧ r'.frame (p2v e'.pa) 7 = 1 := by
  have hone : 0 < userPages := by
    rw [userPages]
    decide
  obtain ⟨d, s, hsetup, hready, hempty⟩ := exists_setupkvm_somePages
  obtain ⟨mem, s₁, hmem, h₁⟩ := hready.kalloc
  obtain ⟨d', s₂, hmap, -⟩ := h₁.mapLoop (v2p mem) ⟨true, true⟩ (n := 0) (k := 1)
    (PageDir.lt_vpages hone) fun m _ hm ↦ hempty m (by omega)
  rw [← PageDir.mappages_one (PageDir.lt_vpages hone)] at hmap
  have hzero : onePage.pte 0 = some ⟨0, ⟨true, true⟩⟩ := rfl
  have hcopy : onePage.copyuvm someImage pgSize ⟨somePages, []⟩ = .ok (some d', s₂) := by
    refine bind_eq_ok_iff.mpr ⟨_, hsetup, ?_⟩
    change PageDir.copyLoop _ onePage pgSize d 0 s = _
    rw [PageDir.copyLoop, if_pos (by decide), if_neg (by decide)]
    simp only [hzero, hmem]
    refine bind_eq_ok_iff.mpr ⟨_, hmap, ?_⟩
    change PageDir.copyLoop _ onePage pgSize d' 1 s₂ = _
    rw [PageDir.copyLoop, if_neg (by decide)]
  have hpresent : ∀ n, n * pgSize < pgSize → (onePage.pte n).isSome := by
    intro n hn
    obtain rfl : n = 0 := by rw [pgSize] at hn; omega
    rfl
  obtain ⟨htotal, hall⟩ := copyuvm_copies (r := ⟨⟨somePages, []⟩, fun _ _ ↦ 1⟩) hpresent
    ledger_somePages fun n e _ he ↦ notMem_somePages_of_onePage he
  obtain ⟨o, r', h⟩ := htotal (by decide)
  cases hcopy.symm.trans (Ram.pool_of_copyuvm h)
  obtain ⟨hsame, hother, -⟩ := (hall _ r' h).1 _ rfl
  obtain ⟨e, e', he, he', -, hbyte⟩ := hsame 7 (by decide)
  exact ⟨_, _, d', _, r', e, e', h, he, he', hother _ _ _ _ hone hone he he', hbyte⟩

end OperatingSystems
