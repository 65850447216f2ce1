import OperatingSystems.Lib.Count
import OperatingSystems.Vm.Basic

/-!
# Where the pages are

Every page that the page-table code takes from the allocator ends up in the directory it works on,
and every page it gives back comes out of that directory. So the free pages and the pages of the
directory together, counted with multiplicity, do not change: that is what each function is shown to
do here, also on the paths on which it runs out of memory and has to undo its work.

`PageDir.pages` counts the page of the directory, the pages of its tables, and the pages that the
user half maps. The kernel half maps memory that is not the directory's to give away.
-/

namespace OperatingSystems

open Function

@[irreducible] def userPages : ℕ := kernBase / pgSize

structure Ledger (kend : BitVec 32) (m : Multiset (BitVec 32)) : Prop where
  nodup : m.Nodup
  isPage : ∀ v ∈ m, IsPage kend v

variable {kend v : BitVec 32} {s : Pool}

theorem Ledger.mono {m m' : Multiset (BitVec 32)} (h : Ledger kend m) (hle : m' ≤ m) :
    Ledger kend m' :=
  ⟨Multiset.nodup_of_le hle h.nodup, fun v hv ↦ h.isPage v (Multiset.mem_of_le hle hv)⟩

theorem KernelImage.kernBase_lt_kend (img : KernelImage) : kernBase < img.kend.toNat :=
  calc kernBase ≤ kernBase + 0x100000 := Nat.le_add_right _ _
    _ < img.data.toNat := img.lt_data
    _ ≤ img.kend.toNat := BitVec.le_def.mp img.data_le

namespace Pool

variable {s' : Pool}

theorem free_of_kalloc {p : BitVec 32} (h : s.kalloc = (some p, s')) : s.free = p :: s'.free := by
  rw [kalloc] at h
  split at h
  · cases h
  · cases h
  · next hfree _ =>
    cases h
    exact hfree

theorem free_of_kalloc_none (h : s.kalloc = (none, s')) : s'.free = s.free := by
  rw [kalloc] at h
  split at h
  · cases h
    rfl
  · cases h
    rfl
  · cases h

theorem kalloc_cases (s : Pool) :
    (∃ s', s.kalloc = (none, s') ∧ s'.free = s.free) ∨
      ∃ p s', s.kalloc = (some p, s') ∧ s.free = p :: s'.free := by
  obtain ⟨⟨p, s'⟩, h⟩ : ∃ r, s.kalloc = r := ⟨_, rfl⟩
  cases p with
  | none => exact Or.inl ⟨s', h, free_of_kalloc_none h⟩
  | some p => exact Or.inr ⟨p, s', h, free_of_kalloc h⟩

theorem kfree_outcome (kend v : BitVec 32) (s : Pool) : Outcome (fun s' ↦ s'.free = v :: s.free)
    (fun _ ↦ ¬Ledger kend (s.free + {v})) (s.kfree kend v) := by
  rw [kfree]
  split
  · split
    · next hmem =>
      refine .error fun h ↦ ?_
      have hnodup := h.nodup
      rw [add_comm, Multiset.singleton_add] at hnodup
      exact (Multiset.nodup_cons.mp hnodup).1 (Multiset.mem_coe.mpr hmem)
    · exact .ok rfl
  · next hpage =>
    refine .error fun h ↦ hpage (h.isPage v ?_)
    exact Multiset.mem_add.mpr (.inr (Multiset.mem_singleton_self v))

theorem kfree_eq_ok (h : s.kfree kend v = .ok s') : s'.free = v :: s.free :=
  (kfree_outcome kend v s).of_ok h

theorem coe_free_of_cons (h : s'.free = v :: s.free) :
    (s'.free : Multiset (BitVec 32)) = s.free + {v} := by
  rw [h, ← Multiset.cons_coe, ← Multiset.singleton_add, add_comm]

end Pool

theorem Ledger.exists_kfree (h : Ledger kend (s.free + {v})) : ∃ s', s.kfree kend v = .ok s' :=
  (Pool.kfree_outcome kend v s).exists_ok fun _ he ↦ he h

namespace PageDir

def tablePage (t : Option (BitVec 32)) : Multiset (BitVec 32) := t.elim 0 fun t ↦ {t}

def mappedPage (e : Option Pte) : Multiset (BitVec 32) := e.elim 0 fun e ↦ {p2v e.pa}

def pages (pd : PageDir) : Multiset (BitVec 32) :=
  {pd.page} + ∑ i ∈ Finset.range npdEntries, tablePage (pd.table i)
    + ∑ n ∈ Finset.range userPages, mappedPage (pd.pte n)

def account (pd : PageDir) (s : Pool) : Multiset (BitVec 32) := s.free + pd.pages

/-! ## Single changes -/

section Changes

variable {pd : PageDir} {i n : ℕ} {t : BitVec 32} {e : Option Pte}

theorem pages_empty (p : BitVec 32) : (empty p).pages = {p} := by
  have htable : ∀ i, tablePage ((empty p).table i) = 0 := fun _ ↦ rfl
  have hpte : ∀ n, mappedPage ((empty p).pte n) = 0 := fun _ ↦ rfl
  simp only [pages, htable, hpte, Finset.sum_const_zero, add_zero]
  rfl

theorem pages_addTable (hi : i < npdEntries) (h : pd.table i = none) :
    (pd.addTable i t).pages = pd.pages + {t} := by
  have hsum := sum_update_add_mem (Finset.mem_range.mpr hi) pd.table (some t) tablePage
  rw [h, show tablePage none = 0 from rfl, add_zero] at hsum
  rw [pages, show (pd.addTable i t).table = update pd.table i (some t) from rfl, hsum,
    ← add_assoc, add_right_comm]
  rfl

theorem pte_setPte (h : (pd.table (n / npdEntries)).isSome) :
    (pd.setPte n e).pte = update pd.pte n e := if_pos h

theorem pages_setPte (hn : n < userPages) (h : (pd.table (n / npdEntries)).isSome) :
    (pd.setPte n e).pages + mappedPage (pd.pte n) = pd.pages + mappedPage e := by
  have hsum := sum_update_add_mem (Finset.mem_range.mpr hn) pd.pte e mappedPage
  rw [← pte_setPte h] at hsum
  rw [pages, pages, add_assoc, hsum, ← add_assoc]
  rfl

theorem pages_setPte_kernel (hn : userPages ≤ n) : (pd.setPte n e).pages = pd.pages := by
  by_cases h : (pd.table (n / npdEntries)).isSome
  · have hsum := sum_update_of_notMem (fun hmem ↦ absurd (Finset.mem_range.mp hmem) (not_lt.mpr hn))
      pd.pte e mappedPage
    rw [← pte_setPte h] at hsum
    rw [pages, hsum]
    rfl
  · have hpte : (pd.setPte n e).pte = pd.pte := if_neg h
    rw [pages, hpte]
    rfl

end Changes

/-! ## Walking and mapping -/

def vpages : ℕ := npdEntries * npdEntries

theorem lt_vpages {n : ℕ} (h : n < userPages) : n < vpages := by
  rw [userPages, kernBase, pgSize] at h
  rw [vpages, npdEntries]
  omega

section Map

variable {pd pd' : PageDir} {s s' : Pool} {n k : ℕ} {b : Bool} {pa : BitVec 32} {perm : Perm}
  {e : VmPanic}

theorem walkpgdir_cases (h : pd.walkpgdir n true s = (b, pd', s')) :
    (pd' = pd ∧ s'.free = s.free ∧ (b = true → (pd.table (n / npdEntries)).isSome)) ∨
      ∃ t, pd.table (n / npdEntries) = none ∧ s.free = t :: s'.free ∧
        pd' = pd.addTable (n / npdEntries) t := by
  rw [walkpgdir] at h
  split at h
  · next htable =>
    cases h
    exact .inl ⟨rfl, rfl, fun _ ↦ htable⟩
  · next htable =>
    rw [Option.not_isSome_iff_eq_none] at htable
    rw [if_neg (by decide)] at h
    rcases s.kalloc_cases with ⟨s₁, hs, hfree⟩ | ⟨t, s₁, hs, hfree⟩
    · rw [hs] at h
      cases h
      exact .inl ⟨rfl, hfree, nofun⟩
    · rw [hs] at h
      cases h
      exact .inr ⟨t, htable, hfree, rfl⟩

theorem walkpgdir_pte (h : pd.walkpgdir n true s = (b, pd', s')) : pd'.pte = pd.pte := by
  rcases walkpgdir_cases h with ⟨rfl, -⟩ | ⟨t, -, -, rfl⟩
  · rfl
  · rfl

theorem walkpgdir_table (h : pd.walkpgdir n true s = (true, pd', s')) :
    (pd'.table (n / npdEntries)).isSome := by
  rcases walkpgdir_cases h with ⟨rfl, -, htable⟩ | ⟨t, -, -, rfl⟩
  · exact htable rfl
  · change (update pd.table _ (some t) _).isSome = true
    rw [update_self]
    rfl

theorem walkpgdir_account (hn : n < vpages) (h : pd.walkpgdir n true s = (b, pd', s')) :
    pd'.account s' = pd.account s := by
  rcases walkpgdir_cases h with ⟨rfl, hfree, -⟩ | ⟨t, htable, hfree, rfl⟩
  · rw [account, account, hfree]
  · rw [account, account, hfree, pages_addTable (Nat.div_lt_of_lt_mul hn) htable,
      ← Multiset.cons_coe, ← Multiset.singleton_add]
    rw [← add_assoc, add_comm, add_assoc]

theorem mapLoop_keeps {P : Bool → PageDir → Pool → Prop}
    (hwalk : ∀ {m pd s b pd' s'}, n ≤ m → m < n + k → pd.walkpgdir m true s = (b, pd', s') →
      P true pd s → P b pd' s')
    (hset : ∀ {m pd s pa}, n ≤ m → m < n + k → (pd.table (m / npdEntries)).isSome →
      P true pd s → P true (pd.setPte m (some ⟨pa, perm⟩)) s)
    (h₀ : P true pd s) (h : pd.mapLoop n pa perm s k = .ok (b, pd', s')) : P b pd' s' := by
  induction k generalizing pd n pa s with
  | zero =>
    cases h
    exact h₀
  | succ k ih =>
    rw [mapLoop] at h
    split at h
    · next pd₁ s₁ hw =>
      cases h
      exact hwalk le_rfl (by omega) hw h₀
    · next pd₁ s₁ hw =>
      split at h
      · cases h
      · exact ih (fun hm hm' ↦ hwalk (by omega) (by omega))
          (fun hm hm' ↦ hset (by omega) (by omega))
          (hset le_rfl (by omega) (walkpgdir_table hw) (hwalk le_rfl (by omega) hw h₀)) h

theorem mapLoop_kernel (hn : userPages ≤ n) (hk : n + k ≤ vpages)
    (h : pd.mapLoop n pa perm s k = .ok (b, pd', s')) : pd'.account s' = pd.account s := by
  refine mapLoop_keeps (P := fun _ pd' s' ↦ pd'.account s' = pd.account s)
    (fun _ hm hw h ↦ (walkpgdir_account (by omega) hw).trans h) (fun hm _ _ h ↦ ?_) rfl h
  rw [account, pages_setPte_kernel (hn.trans hm)]
  exact h

theorem mapLoop_user (hn : n < userPages)
    (h : pd.mapLoop n pa perm s 1 = .ok (b, pd', s')) :
    pd'.account s' = pd.account s + if b then {p2v pa} else 0 := by
  have hn' : n < vpages := lt_vpages hn
  rw [mapLoop] at h
  split at h
  · next pd₁ s₁ hw =>
    cases h
    rw [walkpgdir_account hn' hw, if_neg Bool.false_ne_true, add_zero]
  · next pd₁ s₁ hw =>
    have hacc := walkpgdir_account hn' hw
    split at h
    · cases h
    · next hpte =>
      cases h
      rw [Option.not_isSome_iff_eq_none] at hpte
      have hset := pages_setPte (e := some ⟨pa, perm⟩) hn (walkpgdir_table hw)
      rw [hpte, show mappedPage none = 0 from rfl, add_zero] at hset
      rw [account, hset, ← add_assoc, ← hacc]
      rfl

theorem mappages_one (hn : n < vpages) :
    pd.mappages (n * pgSize) pgSize pa perm s = pd.mapLoop n pa perm s 1 := by
  rw [mappages]
  rw [vpages, npdEntries] at hn
  simp only [pgSize]
  rw [show (n * 4096 + 4096 - 1) % 2 ^ 32 / 4096 - n * 4096 / 4096 + 1 = 1 by omega,
    Nat.mul_div_cancel _ (by omega)]

theorem pte_of_mappages (hn : n < vpages)
    (h : pd.mappages (n * pgSize) pgSize pa perm s = .ok (b, pd', s')) :
    pd'.pte = if b then update pd.pte n (some ⟨pa, perm⟩) else pd.pte := by
  rw [mappages_one hn, mapLoop] at h
  split at h
  · next pd₁ s₁ hw =>
    cases h
    exact walkpgdir_pte hw
  · next pd₁ s₁ hw =>
    split at h
    · cases h
    · cases h
      rw [pte_setPte (walkpgdir_table hw), walkpgdir_pte hw]
      rfl

theorem mappages_error (hn : n < vpages)
    (h : pd.mappages (n * pgSize) pgSize pa perm s = .error e) :
    e = .remap ∧ (pd.pte n).isSome := by
  rw [mappages_one hn, mapLoop] at h
  split at h
  · cases h
  · next pd₁ s₁ hw =>
    split at h
    · next hsome =>
      rw [walkpgdir_pte hw] at hsome
      exact ⟨(Except.error.inj h).symm, hsome⟩
    · cases h

end Map

/-! ## Giving back -/

variable {e : Pte}

section Free

variable {img : KernelImage} {pd pd' : PageDir} {s s' : Pool} {n oldsz newsz size : ℕ}

theorem isSome_of_not_isNone {t : Option (BitVec 32)} (h : ¬t.isNone = true) : t.isSome := by
  cases t with
  | none => exact absurd rfl h
  | some t => rfl

theorem lt_userPages (h : n * pgSize < oldsz) (hsz : oldsz ≤ kernBase) : n < userPages := by
  rw [userPages, kernBase, pgSize] at *
  omega

theorem account_of_free (h : s'.free = v :: s.free) : pd.account s' = pd.account s + {v} := by
  rw [account, account, Pool.coe_free_of_cons h, add_right_comm]

theorem mem_pages_of_pte (hn : n < userPages) (he : pd.pte n = some e) : p2v e.pa ∈ pd.pages := by
  refine Multiset.mem_add.mpr (.inr (Multiset.mem_sum.mpr ⟨n, Finset.mem_range.mpr hn, ?_⟩))
  rw [he]
  exact Multiset.mem_singleton_self _

theorem deallocLoop_outcome (hsz : oldsz ≤ kernBase) :
    Outcome (fun r ↦ r.1.account r.2 = pd.account s ∧ r.1.page = pd.page ∧ r.1.table = pd.table ∧
        ∀ m, r.1.pte m = if n ≤ m ∧ m * pgSize < oldsz then none else pd.pte m)
      (fun _ ↦ ¬Ledger img.kend (pd.account s)) (deallocLoop img.kend oldsz pd n s) := by
  fun_induction deallocLoop img.kend oldsz pd n s with
  | case1 pd n s hlt htable ih =>
    -- the table is missing, so all entries that are skipped are absent
    refine ih.imp fun r hr ↦ ?_
    obtain ⟨hacc, hpage, htab, hpte⟩ := hr
    refine ⟨hacc, hpage, htab, fun m ↦ ?_⟩
    rw [hpte]
    by_cases hm : n / npdEntries = m / npdEntries
    · have hnone : pd.pte m = none := pd.absent m (hm ▸ Option.isNone_iff_eq_none.mp htable)
      rw [hnone, ite_self, ite_self]
    · have hiff : (n / npdEntries + 1) * npdEntries ≤ m ↔ n ≤ m := by
        rw [npdEntries] at hm ⊢
        omega
      exact if_congr (and_congr_left' hiff) rfl rfl
  | case2 pd n s hlt htable hnone ih =>
    refine ih.imp fun r hr ↦ ?_
    obtain ⟨hacc, hpage, htab, hpte⟩ := hr
    refine ⟨hacc, hpage, htab, fun m ↦ ?_⟩
    rw [hpte]
    by_cases hm : m = n
    · rw [hm, hnone, ite_self, ite_self]
    · exact if_congr (and_congr_left' (by omega)) rfl rfl
  | case3 pd n s hlt htable e he hpa =>
    -- address 0 is below the kernel, so it is not in the ledger
    refine .error fun h ↦ ?_
    have hmem : p2v e.pa ∈ pd.account s :=
      Multiset.mem_add.mpr (.inr (mem_pages_of_pte (lt_userPages hlt hsz) he))
    have hend := BitVec.le_def.mp (h.isPage _ hmem).2.1
    have hlow := img.kernBase_lt_kend
    rw [hpa] at hend
    have hbase : (p2v 0).toNat = kernBase := by decide
    omega
  | case4 pd n s hlt htable e he hpa ih =>
    have hsome := isSome_of_not_isNone htable
    -- the page moves from the entry to the free list
    have hsplit : (pd.setPte n none).account s + {p2v e.pa} = pd.account s := by
      have hset := pages_setPte (e := none) (lt_userPages hlt hsz) hsome
      rw [he, show mappedPage none = 0 from rfl, add_zero] at hset
      rw [account, account, ← hset, add_assoc]
      rfl
    have hle : (s.free : Multiset (BitVec 32)) + {p2v e.pa} ≤ pd.account s := by
      rw [← hsplit, account, add_right_comm]
      exact Multiset.le_add_right _ _
    refine ((Pool.kfree_outcome _ _ s).imp_error fun _ hno hl ↦ hno (hl.mono hle)).bind
      fun s₁ hs ↦ ?_
    have ih := ih s₁
    rw [account_of_free hs, hsplit] at ih
    refine ih.imp fun r hr ↦ ?_
    obtain ⟨hacc, hpage, htab, hpte⟩ := hr
    refine ⟨hacc, hpage, htab, fun m ↦ ?_⟩
    rw [hpte, pte_setPte hsome]
    by_cases hm : m = n
    · rw [hm, update_self, ite_self, if_pos ⟨le_rfl, hlt⟩]
    · rw [update_of_ne hm]
      exact if_congr (and_congr_left' (by omega)) rfl rfl
  | case5 pd n s hge =>
    refine .ok ⟨rfl, rfl, rfl, fun m ↦ ?_⟩
    rw [if_neg]
    rintro ⟨hm, hlt⟩
    exact hge (lt_of_le_of_lt (Nat.mul_le_mul_right _ hm) hlt)

theorem deallocuvm_outcome (newsz : ℕ) (hsz : oldsz ≤ kernBase) :
    Outcome (fun r ↦ r.2.1.account r.2.2 = pd.account s ∧ r.2.1.page = pd.page ∧
        r.2.1.table = pd.table ∧ ∀ m, r.2.1.pte m
          = if (newsz + pgSize - 1) / pgSize ≤ m ∧ m * pgSize < oldsz then none else pd.pte m)
      (fun _ ↦ ¬Ledger img.kend (pd.account s)) (pd.deallocuvm img.kend oldsz newsz s) := by
  rw [deallocuvm]
  split
  · next hge =>
    refine .ok ⟨rfl, rfl, rfl, fun m ↦ ?_⟩
    rw [if_neg]
    rintro ⟨hm, hlt⟩
    rw [pgSize] at hm hlt
    omega
  · exact (deallocLoop_outcome hsz).bind fun r hr ↦ .ok hr

theorem deallocuvm_spec (hsz : oldsz ≤ kernBase)
    (h : pd.deallocuvm img.kend oldsz newsz s = .ok (size, pd', s')) :
    pd'.account s' = pd.account s ∧ pd'.page = pd.page ∧ pd'.table = pd.table ∧
      ∀ m, pd'.pte m
        = if (newsz + pgSize - 1) / pgSize ≤ m ∧ m * pgSize < oldsz then none else pd.pte m :=
  (deallocuvm_outcome newsz hsz).of_ok h

theorem deallocuvm_size (hsz : oldsz ≤ kernBase)
    (h : pd.deallocuvm img.kend oldsz newsz s = .ok (size, pd', s')) : size ≤ kernBase := by
  rw [deallocuvm] at h
  split at h
  · cases h
    exact hsz
  · next hlt =>
    obtain ⟨⟨pd₁, s₁⟩, -, h⟩ := bind_eq_ok_iff.mp h
    cases h
    exact (not_le.mp hlt).le.trans hsz

theorem freeTables_outcome (is : List ℕ) :
    Outcome (fun s' ↦ (s'.free : Multiset (BitVec 32))
        = s.free + (is.map fun i ↦ tablePage (pd.table i)).sum)
      (fun _ ↦ ¬Ledger img.kend (s.free + (is.map fun i ↦ tablePage (pd.table i)).sum))
      (freeTables img.kend pd s is) := by
  induction is generalizing s with
  | nil =>
    refine .ok ?_
    rw [List.map_nil, List.sum_nil, add_zero]
  | cons i is ih =>
    rw [freeTables, List.map_cons, List.sum_cons]
    cases ht : pd.table i with
    | none =>
      rw [show tablePage none = 0 from rfl, zero_add]
      exact ih
    | some t =>
      rw [← add_assoc]
      refine ((Pool.kfree_outcome _ t s).imp_error fun _ hno hl ↦
        hno (hl.mono (Multiset.le_add_right _ _))).bind fun s₁ hs ↦ ?_
      have ih := ih (s := s₁)
      rwa [Pool.coe_free_of_cons hs] at ih

theorem sum_range_eq_list_sum (f : ℕ → Multiset (BitVec 32)) (n : ℕ) :
    ∑ i ∈ Finset.range n, f i = ((List.range n).map f).sum := rfl

/-- **`freevm` gives everything back**, and fails only if the pages do not add up. -/
theorem freevm_outcome (pd : PageDir) (s : Pool) :
    Outcome (fun s' ↦ (s'.free : Multiset (BitVec 32)) = pd.account s)
      (fun _ ↦ ¬Ledger img.kend (pd.account s)) (pd.freevm img.kend s) := by
  refine (deallocuvm_outcome 0 le_rfl).bind fun r hr ↦ ?_
  obtain ⟨hacc, -, -, hpte⟩ := hr
  -- nothing is left in the user half
  have huser : ∑ n ∈ Finset.range userPages, mappedPage (r.2.1.pte n) = 0 :=
    Finset.sum_eq_zero fun n hn ↦ by
      have hn : n < userPages := Finset.mem_range.mp hn
      rw [hpte, if_pos ⟨by rw [pgSize]; omega, by rw [userPages, kernBase, pgSize] at *; omega⟩]
      rfl
  rw [account, pages, huser, sum_range_eq_list_sum, add_zero, add_comm {r.2.1.page}, ← add_assoc]
    at hacc
  rw [← hacc]
  refine ((freeTables_outcome _).imp_error fun _ hno hl ↦
    hno (hl.mono (Multiset.le_add_right _ _))).bind fun s₂ hs₂ ↦ ?_
  rw [← hs₂]
  exact (Pool.kfree_outcome _ _ s₂).imp fun s₃ ↦ Pool.coe_free_of_cons

theorem freevm_spec (h : pd.freevm img.kend s = .ok s') :
    (s'.free : Multiset (BitVec 32)) = pd.account s :=
  (freevm_outcome pd s).of_ok h

theorem exists_freevm (h : Ledger img.kend (pd.account s)) : ∃ s', pd.freevm img.kend s = .ok s' :=
  (freevm_outcome pd s).exists_ok fun _ he ↦ he h

end Free

/-! ## Building up -/

section Build

variable {img : KernelImage} {pd pd' src d : PageDir} {s s' : Pool} {b : Bool}
  {n oldsz newsz size sz : ℕ} {P : PageDir → Prop} {k : Kmap} {r : Option PageDir}
  {Q : ℕ → Pte → Prop}

theorem userPages_le_of_mem_kmap (hk : k ∈ kmap img) :
    userPages ≤ k.virt / pgSize ∧ k.virt / pgSize < vpages ∧ k.perm.u = false := by
  have hdata := img.data.isLt
  have hlt := img.lt_data
  rw [userPages, vpages, kernBase, pgSize, npdEntries] at *
  simp only [kmap, List.mem_cons, List.not_mem_nil, or_false] at hk
  rcases hk with rfl | rfl | rfl | rfl
  · exact ⟨by decide, by decide, rfl⟩
  · exact ⟨by simp only [kernLink]; decide, by simp only [kernLink]; decide, rfl⟩
  · exact ⟨by simp only; omega, by simp only; omega, rfl⟩
  · exact ⟨by decide, by decide, rfl⟩

theorem line_le_vpages (hk : k ∈ kmap img) :
    k.virt / pgSize + ((k.virt + (k.physEnd - k.physStart).toNat - 1) % 2 ^ 32 / pgSize
      - k.virt / pgSize + 1) ≤ vpages := by
  obtain ⟨-, hhi, -⟩ := userPages_le_of_mem_kmap hk
  rw [vpages, npdEntries, pgSize] at *
  omega

theorem mapKernel_keeps {P : Bool → PageDir → Pool → Prop} {ks : List Kmap}
    (hline : ∀ k ∈ ks, ∀ {pd s b pd' s'}, pd.mappages k.virt (k.physEnd - k.physStart).toNat
      k.physStart k.perm s = .ok (b, pd', s') → P true pd s → P b pd' s')
    (h₀ : P true pd s) (h : mapKernel pd s ks = .ok (b, pd', s')) : P b pd' s' := by
  induction ks generalizing pd s with
  | nil =>
    cases h
    exact h₀
  | cons k ks ih =>
    obtain ⟨⟨b₁, pd₁, s₁⟩, hmap, h⟩ := bind_eq_ok_iff.mp h
    have h₁ := hline k List.mem_cons_self hmap h₀
    cases b₁ with
    | false =>
      cases h
      exact h₁
    | true => exact ih (fun k hk ↦ hline k (List.mem_cons_of_mem _ hk)) h₁ h

theorem mapKernel_spec (h : mapKernel pd s (kmap img) = .ok (b, pd', s')) :
    pd'.account s' = pd.account s :=
  mapKernel_keeps (P := fun _ pd' s' ↦ pd'.account s' = pd.account s) (fun _ hk _ _ _ _ _ hmap h ↦
    (mapLoop_kernel (userPages_le_of_mem_kmap hk).1 (line_le_vpages hk) hmap).trans h) rfl h

theorem setupkvm_cases (h : setupkvm img s = .ok (r, s')) :
    r = none ∧ s'.free = s.free ∨ ∃ p s₁ b pd s₂, s.free = p :: s₁.free ∧
      mapKernel (empty p) s₁ (kmap img) = .ok (b, pd, s₂) ∧
      (b = true ∧ r = some pd ∧ s' = s₂ ∨ b = false ∧ r = none ∧
        pd.freevm img.kend s₂ = .ok s') := by
  rw [setupkvm] at h
  rcases s.kalloc_cases with ⟨s₁, hs, hfree⟩ | ⟨p, s₁, hs, hfree⟩
  · simp only [hs] at h
    cases h
    exact .inl ⟨rfl, hfree⟩
  · simp only [hs] at h
    rw [if_neg (by decide)] at h
    obtain ⟨⟨b, pd, s₂⟩, hmap, h⟩ := bind_eq_ok_iff.mp h
    refine .inr ⟨p, s₁, b, pd, s₂, hfree, hmap, ?_⟩
    cases b with
    | true =>
      cases h
      exact .inl ⟨rfl, rfl, rfl⟩
    | false =>
      obtain ⟨s₃, hfreevm, h⟩ := bind_eq_ok_iff.mp h
      cases h
      exact .inr ⟨rfl, rfl, hfreevm⟩

theorem setupkvm_keeps {P : PageDir → Pool → Prop}
    (h₀ : ∀ p s', s.free = p :: s'.free → P (empty p) s')
    (hline : ∀ k ∈ kmap img, ∀ {pd s b pd' s'}, pd.mappages k.virt (k.physEnd - k.physStart).toNat
      k.physStart k.perm s = .ok (b, pd', s') → P pd s → P pd' s')
    (h : setupkvm img s = .ok (some pd, s')) : P pd s' := by
  rcases setupkvm_cases h with ⟨hr, -⟩ | ⟨p, s₁, b, pd₁, s₂, hfree, hmap, ⟨-, hr, rfl⟩ | ⟨-, hr, -⟩⟩
  · cases hr
  · cases hr
    exact mapKernel_keeps (P := fun _ ↦ P) hline (h₀ p s₁ hfree) hmap
  · cases hr

theorem setupkvm_spec (h : setupkvm img s = .ok (r, s')) :
    (s'.free : Multiset (BitVec 32)) + r.elim 0 pages = s.free := by
  rcases setupkvm_cases h with ⟨rfl, hfree⟩ | ⟨p, s₁, b, pd, s₂, hfree, hmap, hexit⟩
  · rw [hfree]
    exact add_zero _
  · have hempty : (empty p).account s₁ = s.free := by
      rw [account, pages_empty, hfree, ← Multiset.cons_coe, ← Multiset.singleton_add, add_comm]
    have hacc := (mapKernel_spec hmap).trans hempty
    rcases hexit with ⟨-, rfl, rfl⟩ | ⟨-, rfl, hfreevm⟩
    · exact hacc
    · rw [freevm_spec hfreevm, hacc]
      exact add_zero _

theorem account_of_map {mem : BitVec 32} {perm : Perm} {s₁ : Pool} (hn : n < userPages)
    (hfree : s.free = mem :: s₁.free)
    (h : pd.mappages (n * pgSize) pgSize (v2p mem) perm s₁ = .ok (b, pd', s')) :
    pd'.account s' + (if b then 0 else {mem}) = pd.account s := by
  rw [mappages_one (lt_vpages hn)] at h
  have hmap := mapLoop_user hn h
  rw [p2v_v2p] at hmap
  have hs : pd.account s = pd.account s₁ + {mem} := by
    rw [account, account, hfree, ← Multiset.cons_coe, ← Multiset.singleton_add,
      add_comm ({mem} : Multiset (BitVec 32)), add_right_comm]
  rw [hmap, hs]
  cases b with
  | true => exact add_zero _
  | false =>
    rw [if_neg Bool.false_ne_true, if_neg Bool.false_ne_true, add_zero]

/-- The pages from `n` on and below `sz`. -/
def InRange (n sz m : ℕ) : Prop := n ≤ m ∧ m * pgSize < sz

theorem InRange.of_succ {m : ℕ} (h : InRange (n + 1) sz m) : InRange n sz m ∧ m ≠ n :=
  ⟨⟨(Nat.le_succ n).trans h.1, h.2⟩, (Nat.lt_of_succ_le h.1).ne'⟩

/-- From page `n` on and below `sz`, what `Q` holds of is mapped; the other entries are those of
`pd`. -/
def Fills (n sz : ℕ) (pd pd' : PageDir) (Q : ℕ → Pte → Prop) : Prop :=
  ∀ m, pd'.pte m = pd.pte m ∧ ¬InRange n sz m ∨ InRange n sz m ∧ ∃ e, pd'.pte m = some e ∧ Q m e

theorem Fills.done (hge : ¬n * pgSize < sz) : Fills n sz pd pd Q := fun _ ↦
  .inl ⟨rfl, fun hin ↦ hge (lt_of_le_of_lt (Nat.mul_le_mul_right _ hin.1) hin.2)⟩

theorem Fills.round (h : Fills (n + 1) sz d pd' Q) (hlt : n * pgSize < sz)
    (hpte : d.pte = update pd.pte n (some e)) (he : Q n e) : Fills n sz pd pd' Q := by
  intro m
  by_cases hm : m = n
  · subst hm
    rcases h m with ⟨heq, -⟩ | ⟨hin, -⟩
    · rw [hpte, update_self] at heq
      exact .inr ⟨⟨le_rfl, hlt⟩, e, heq, he⟩
    · exact absurd hin.1 (Nat.not_succ_le_self m)
  · rcases h m with ⟨heq, hnot⟩ | ⟨hin, hsome⟩
    · rw [hpte, update_of_ne hm] at heq
      refine .inl ⟨heq, fun hin ↦ hnot ⟨?_, hin.2⟩⟩
      exact Nat.lt_of_le_of_ne hin.1 (Ne.symm hm)
    · exact .inr ⟨hin.of_succ.1, hsome⟩

theorem allocLoop_outcome (hsz : newsz ≤ kernBase) (hn : (oldsz + pgSize - 1) / pgSize ≤ n) :
    Outcome (fun r ↦ r.2.1.account r.2.2 = pd.account s ∧
        (r.1 = newsz ∧ Fills n newsz pd r.2.1 (fun _ e ↦ e.perm = ⟨true, true⟩) ∨
          r.1 = 0 ∧ ∀ m, r.2.1.pte m
            = if (oldsz + pgSize - 1) / pgSize ≤ m ∧ m * pgSize < newsz then none else pd.pte m))
      (fun e ↦ Ledger img.kend (pd.account s) →
        e = .remap ∧ ∃ m, InRange n newsz m ∧ (pd.pte m).isSome)
      (allocLoop img oldsz newsz pd n s) := by
  fun_induction allocLoop img oldsz newsz pd n s with
  | case1 pd n s hlt s₁ hs =>
    have hacc : pd.account s₁ = pd.account s := by
      rw [account, Pool.free_of_kalloc_none hs, account]
    rw [← hacc]
    refine ((deallocuvm_outcome oldsz hsz).imp_error fun _ hno hl ↦ absurd hl hno).bind
      fun r hr ↦ .ok ⟨hr.1, .inr ⟨rfl, hr.2.2.2⟩⟩
  | case2 pd n s hlt mem s₁ hs ih =>
    have hlt' := lt_userPages hlt hsz
    cases hmap : pd.mappages (n * pgSize) pgSize (v2p mem) ⟨true, true⟩ s₁ with
    | error e =>
      obtain ⟨he, hsome⟩ := mappages_error (lt_vpages hlt') hmap
      exact .error fun _ ↦ ⟨he, n, ⟨le_rfl, hlt⟩, hsome⟩
    | ok r =>
      obtain ⟨b, pd₁, s₂⟩ := r
      have hpte := pte_of_mappages (lt_vpages hlt') hmap
      have hacc := account_of_map hlt' (Pool.free_of_kalloc hs) hmap
      cases b with
      | true =>
        have ih := ih pd₁ s₂ (hn.trans (Nat.le_succ n))
        rw [← hacc, if_pos rfl, add_zero]
        rw [if_pos rfl] at hpte
        refine (ih.imp fun r hr ↦ ⟨hr.1, ?_⟩).imp_error fun e he hl ↦ ?_
        · obtain ⟨he, m, hm, hsome⟩ := he hl
          obtain ⟨hm, hne⟩ := hm.of_succ
          rw [hpte, update_of_ne hne] at hsome
          exact ⟨he, m, hm, hsome⟩
        · rcases hr.2 with ⟨hsize, hall⟩ | ⟨hsize, hall⟩
          · exact .inl ⟨hsize, hall.round hlt hpte rfl⟩
          · refine .inr ⟨hsize, fun m ↦ ?_⟩
            rw [hall m]
            by_cases hm : m = n
            · subst hm
              rw [if_pos ⟨hn, hlt⟩, if_pos ⟨hn, hlt⟩]
            · rw [hpte, update_of_ne hm]
      | false =>
        -- undo: free the pages mapped so far, then the one that could not be mapped
        have hacc : pd₁.account s₂ + {mem} = pd.account s := hacc
        have hpte : pd₁.pte = pd.pte := hpte
        rw [← hacc, ← hpte]
        refine ((deallocuvm_outcome oldsz hsz).imp_error fun _ hno hl ↦
          absurd (hl.mono (Multiset.le_add_right _ _)) hno).bind fun r hr ↦ ?_
        have hle : (r.2.2.free : Multiset (BitVec 32)) + {mem} ≤ pd₁.account s₂ + {mem} := by
          rw [← hr.1]
          exact add_le_add (Multiset.le_add_right _ _) le_rfl
        refine ((Pool.kfree_outcome _ mem r.2.2).imp_error fun _ hno hl ↦
          absurd (hl.mono hle) hno).bind fun s₃ hs₃ ↦ .ok ⟨?_, .inr ⟨rfl, hr.2.2.2⟩⟩
        exact (account_of_free hs₃).trans (congrArg (· + {mem}) hr.1)
  | case3 pd n s hge =>
    exact .ok ⟨rfl, .inl ⟨rfl, .done hge⟩⟩

theorem allocLoop_keeps (hsz : newsz ≤ kernBase)
    (hmap : ∀ {m mem pd s b pd' s'}, m < userPages → pd.mappages (m * pgSize) pgSize (v2p mem)
      ⟨true, true⟩ s = .ok (b, pd', s') → P pd → P pd')
    (hdealloc : ∀ {pd s size pd' s'}, pd.deallocuvm img.kend newsz oldsz s = .ok (size, pd', s') →
      P pd → P pd') (h₀ : P pd) (h : allocLoop img oldsz newsz pd n s = .ok (size, pd', s')) :
    P pd' := by
  fun_induction allocLoop img oldsz newsz pd n s with
  | case1 pd n s hlt s₁ hs =>
    obtain ⟨⟨size₁, pd₁, s₂⟩, hd, h⟩ := bind_eq_ok_iff.mp h
    cases h
    exact hdealloc hd h₀
  | case2 pd n s hlt mem s₁ hs ih =>
    obtain ⟨⟨b, pd₁, s₂⟩, hm, h⟩ := bind_eq_ok_iff.mp h
    have h₁ := hmap (lt_userPages hlt hsz) hm h₀
    cases b with
    | true => exact ih _ _ h₁ h
    | false =>
      obtain ⟨⟨size₁, pd₂, s₃⟩, hd, h⟩ := bind_eq_ok_iff.mp h
      obtain ⟨s₄, -, h⟩ := bind_eq_ok_iff.mp h
      cases h
      exact hdealloc hd h₁
  | case3 pd n s hge =>
    cases h
    exact h₀

theorem allocuvm_cases (h : pd.allocuvm img oldsz newsz s = .ok (size, pd', s')) :
    pd' = pd ∧ s' = s ∧ (size = 0 ∨ size = oldsz) ∨
      newsz < kernBase ∧ allocLoop img oldsz newsz pd ((oldsz + pgSize - 1) / pgSize) s
        = .ok (size, pd', s') := by
  rw [allocuvm] at h
  split at h
  · cases h
    exact .inl ⟨rfl, rfl, .inl rfl⟩
  · next hnew =>
    split at h
    · cases h
      exact .inl ⟨rfl, rfl, .inr rfl⟩
    · exact .inr ⟨not_le.mp hnew, h⟩

theorem allocuvm_keeps
    (hmap : ∀ {m mem pd s b pd' s'}, m < userPages → pd.mappages (m * pgSize) pgSize (v2p mem)
      ⟨true, true⟩ s = .ok (b, pd', s') → P pd → P pd')
    (hdealloc : ∀ {pd s size pd' s'}, newsz ≤ kernBase →
      pd.deallocuvm img.kend newsz oldsz s = .ok (size, pd', s') → P pd → P pd') (h₀ : P pd)
    (h : pd.allocuvm img oldsz newsz s = .ok (size, pd', s')) : P pd' := by
  rcases allocuvm_cases h with ⟨rfl, -⟩ | ⟨hnew, h⟩
  · exact h₀
  · exact allocLoop_keeps hnew.le hmap (hdealloc hnew.le) h₀ h

theorem allocuvm_size (hsz : oldsz ≤ kernBase)
    (h : pd.allocuvm img oldsz newsz s = .ok (size, pd', s')) : size ≤ kernBase := by
  rcases allocuvm_cases h with ⟨-, -, rfl | rfl⟩ | ⟨hnew, h⟩
  · exact Nat.zero_le _
  · exact hsz
  · rcases ((allocLoop_outcome hnew.le le_rfl).of_ok h).2 with ⟨rfl, -⟩ | ⟨rfl, -⟩
    · exact hnew.le
    · exact Nat.zero_le _

/-- **`allocuvm` loses no page**, whether it succeeds or not. -/
theorem allocuvm_spec (h : pd.allocuvm img oldsz newsz s = .ok (size, pd', s')) :
    pd'.account s' = pd.account s := by
  rcases allocuvm_cases h with ⟨rfl, rfl, -⟩ | ⟨hnew, h⟩
  · rfl
  · exact ((allocLoop_outcome hnew.le le_rfl).of_ok h).1

theorem clearpteu_spec (hn : n < userPages) (h : pd.clearpteu n = .ok pd') :
    pd'.pages = pd.pages := by
  rw [clearpteu] at h
  split at h
  · cases h
  · next htable =>
    cases h
    have hset := pages_setPte
      (e := (pd.pte n).map fun e ↦ { e with perm := { e.perm with u := false } }) hn
      (isSome_of_not_isNone htable)
    refine add_right_cancel (hset.trans ?_)
    cases pd.pte n with
    | none => rfl
    | some e => rfl

/-- How the copying of `src` fails: a page is there already, or one is missing. -/
def CopyFails (src d : PageDir) (n sz : ℕ) (e : VmPanic) : Prop :=
  e = .remap ∧ (∃ m, InRange n sz m ∧ (d.pte m).isSome) ∨
    (e = .pteShouldExist ∨ e = .pageNotPresent) ∧ ∃ m, InRange n sz m ∧ src.pte m = none

theorem copyLoop_outcome (hsz : sz ≤ kernBase) :
    Outcome (fun r ↦ (r.2.free : Multiset (BitVec 32)) + r.1.elim 0 pages = d.account s ∧
        ∀ pd', r.1 = some pd' →
          Fills n sz d pd' fun m e' ↦ ∃ e, src.pte m = some e ∧ e'.perm = e.perm)
      (fun e ↦ Ledger img.kend (d.account s) → CopyFails src d n sz e)
      (copyLoop img src sz d n s) := by
  fun_induction copyLoop img src sz d n s with
  | case1 d n s hlt htable =>
    have hnone := src.absent n (Option.isNone_iff_eq_none.mp htable)
    exact .error fun _ ↦ .inr ⟨.inl rfl, n, ⟨le_rfl, hlt⟩, hnone⟩
  | case2 d n s hlt htable hpte => exact .error fun _ ↦ .inr ⟨.inr rfl, n, ⟨le_rfl, hlt⟩, hpte⟩
  | case3 d n s hlt htable e he s₁ hs =>
    have hacc : d.account s₁ = d.account s := by rw [account, Pool.free_of_kalloc_none hs, account]
    rw [← hacc]
    exact ((freevm_outcome d s₁).imp_error fun _ hno hl ↦ absurd hl hno).bind fun s₂ hs₂ ↦
      .ok ⟨(add_zero _).trans hs₂, fun _ h ↦ by cases h⟩
  | case4 d n s hlt htable e he mem s₁ hs ih =>
    have hlt' := lt_userPages hlt hsz
    cases hmap : d.mappages (n * pgSize) pgSize (v2p mem) e.perm s₁ with
    | error e' =>
      obtain ⟨he', hsome⟩ := mappages_error (lt_vpages hlt') hmap
      exact .error fun _ ↦ .inl ⟨he', n, ⟨le_rfl, hlt⟩, hsome⟩
    | ok r =>
      obtain ⟨b, d₁, s₂⟩ := r
      have hpte := pte_of_mappages (lt_vpages hlt') hmap
      have hacc := account_of_map hlt' (Pool.free_of_kalloc hs) hmap
      cases b with
      | true =>
        rw [← hacc, if_pos rfl, add_zero]
        rw [if_pos rfl] at hpte
        refine ((ih d₁ s₂).imp fun r hr ↦ ⟨hr.1, fun pd' hpd' ↦ ?_⟩).imp_error fun e' he' hl ↦ ?_
        · rcases he' hl with ⟨he', m, hm, hsome⟩ | ⟨he', m, hm, hnone⟩
          · obtain ⟨hm, hne⟩ := hm.of_succ
            rw [hpte, update_of_ne hne] at hsome
            exact .inl ⟨he', m, hm, hsome⟩
          · exact .inr ⟨he', m, hm.of_succ.1, hnone⟩
        · exact (hr.2 pd' hpd').round hlt hpte ⟨e, he, rfl⟩
      | false =>
        have hacc : d₁.account s₂ + {mem} = d.account s := hacc
        have hle : (s₂.free : Multiset (BitVec 32)) + {mem} ≤ d.account s := by
          rw [← hacc]
          exact add_le_add (Multiset.le_add_right _ _) le_rfl
        refine ((Pool.kfree_outcome _ mem s₂).imp_error fun _ hno hl ↦
          absurd (hl.mono hle) hno).bind fun s₃ hs₃ ↦ ?_
        rw [← hacc, ← account_of_free hs₃]
        exact ((freevm_outcome d₁ s₃).imp_error fun _ hno hl ↦ absurd hl hno).bind fun s₄ hs₄ ↦
          .ok ⟨(add_zero _).trans hs₄, fun _ h ↦ by cases h⟩
  | case5 d n s hge =>
    refine .ok ⟨rfl, fun pd' hpd' ↦ ?_⟩
    cases hpd'
    exact .done hge

/-- **`copyuvm` moves pages from the allocator into the copy**, or none at all. -/
theorem copyuvm_spec (hsz : sz ≤ kernBase) (h : pd.copyuvm img sz s = .ok (r, s')) :
    (s'.free : Multiset (BitVec 32)) + r.elim 0 pages = s.free := by
  obtain ⟨⟨r₁, s₁⟩, hsetup, h⟩ := bind_eq_ok_iff.mp h
  have hacc := setupkvm_spec hsetup
  cases r₁ with
  | none =>
    cases h
    exact hacc
  | some d => exact ((copyLoop_outcome hsz).of_ok h).1.trans hacc

end Build

end PageDir

end OperatingSystems
