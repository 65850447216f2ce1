import OperatingSystems.Vm.Protect

/-!
# How the page-table code fails

Where the pages add up, `Ledger`, the functions that give pages back do not fail: what they free is
a page of the allocator's, and it is not free already. So `deallocuvm` and `freevm` always return,
and so does `setupkvm`, which maps into a directory that is empty.

The others fail only if the directory is not as they expect it: `allocuvm` when a page that it is
about to map is there already, and `copyuvm` when one that it copies is missing. The lemmas name
that page.
-/

namespace OperatingSystems

open Function

theorem Ledger.notMem_free {kend : BitVec 32} {pd : PageDir} {s : Pool} {n : ℕ} {e : Pte}
    (h : Ledger kend (pd.account s)) (hn : n < userPages) (he : pd.pte n = some e) :
    p2v e.pa ∉ s.free := fun hmem ↦
  Multiset.disjoint_left.mp (Multiset.nodup_add.mp h.nodup).2.2 (Multiset.mem_coe.mpr hmem)
    (PageDir.mem_pages_of_pte hn he)

/-! ## Giving pages back -/

namespace PageDir

variable {img : KernelImage} {pd pd' d src : PageDir} {s s' : Pool} {b : Bool}
  {n k oldsz newsz sz : ℕ} {pa : BitVec 32} {perm : Perm} {e : VmPanic}

theorem exists_deallocuvm (newsz : ℕ) (hsz : oldsz ≤ kernBase)
    (h : Ledger img.kend (pd.account s)) : ∃ r, pd.deallocuvm img.kend oldsz newsz s = .ok r :=
  (deallocuvm_outcome newsz hsz).exists_ok fun _ he ↦ he h

theorem exists_setupkvm_of_ledger (hl : Ledger img.kend s.free) : ∃ r s',
    setupkvm img s = .ok (r, s') ∧ ∀ pd, r = some pd → ∀ m, m < userPages → pd.pte m = none := by
  rw [setupkvm]
  rcases s.kalloc_cases with ⟨s₁, hs, -⟩ | ⟨p, s₁, hs, hfree⟩
  · simp only [hs]
    exact ⟨none, s₁, rfl, fun _ h ↦ by cases h⟩
  · simp only [hs]
    rw [if_neg (by decide)]
    have habsent : ∀ m, userPages ≤ m → (empty p).pte m = none := fun _ _ ↦ rfl
    obtain ⟨b, pd, s₂, hmap, hpte⟩ := exists_mapKernel _ s₁ (ascending_kmap img) habsent
    cases b with
    | true =>
      refine ⟨some pd, s₂, bind_eq_ok_iff.mpr ⟨_, hmap, rfl⟩, fun pd' hpd m hm ↦ ?_⟩
      cases hpd
      exact hpte m hm
    | false =>
      -- giving back what was built does not fail
      have hacc : pd.account s₂ = s.free := by
        rw [mapKernel_spec hmap, account, pages_empty, hfree, ← Multiset.cons_coe,
          ← Multiset.singleton_add, add_comm]
      obtain ⟨s₃, hs₃⟩ := exists_freevm (hacc ▸ hl)
      exact ⟨none, s₃, bind_eq_ok_iff.mpr ⟨_, hmap, bind_eq_ok_iff.mpr ⟨s₃, hs₃, rfl⟩⟩,
        fun _ h ↦ by cases h⟩

/-! ## Growing and copying -/

theorem allocuvm_error (hl : Ledger img.kend (pd.account s))
    (h : pd.allocuvm img oldsz newsz s = .error e) :
    e = .remap ∧ ∃ m, m < userPages ∧ oldsz ≤ m * pgSize ∧ (pd.pte m).isSome := by
  rw [allocuvm] at h
  split at h
  · cases h
  · next hsz =>
    have hsz := (not_le.mp hsz).le
    split at h
    · cases h
    · obtain ⟨he, m, ⟨hle, hlt⟩, hsome⟩ :=
        (allocLoop_outcome hsz le_rfl).of_error h hl
      refine ⟨he, m, lt_userPages hlt hsz, ?_, hsome⟩
      rw [pgSize] at hle ⊢
      omega

theorem copyuvm_error (hsz : sz ≤ kernBase) (hl : Ledger img.kend s.free)
    (h : pd.copyuvm img sz s = .error e) :
    (e = .pteShouldExist ∨ e = .pageNotPresent) ∧ ∃ m, m * pgSize < sz ∧ pd.pte m = none := by
  obtain ⟨r, s₁, hsetup, hempty⟩ := exists_setupkvm_of_ledger hl
  rcases bind_eq_error_iff.mp h with h | ⟨_, hsetup', h⟩
  · rw [hsetup] at h
    cases h
  rw [hsetup] at hsetup'
  cases hsetup'
  have hacc := setupkvm_spec hsetup
  cases r with
  | none => cases h
  | some d =>
    have hacc : d.account s₁ = s.free := hacc
    rcases (copyLoop_outcome hsz).of_error h (hacc ▸ hl) with ⟨-, m, hm, hsome⟩ | ⟨he, m, hm, hnone⟩
    · -- the copy is made in an empty directory
      rw [hempty d rfl m (lt_userPages hm.2 hsz)] at hsome
      cases hsome
    · exact ⟨he, m, hm.2, hnone⟩

end PageDir

end OperatingSystems
