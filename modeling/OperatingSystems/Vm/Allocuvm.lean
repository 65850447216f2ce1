import Mathlib.Order.Interval.Finset.Nat
import OperatingSystems.Vm.Copyout
import OperatingSystems.Vm.Growproc

/-!
# Growing and taking back

`allocuvm` maps pages one by one, and when it runs out of memory, for a page or for a table, it
takes them all out again. Only tables stay behind. After a success, `deallocuvm` with the sizes
exchanged does the same.

The loop of `deallocuvm` runs over addresses, and where a table is missing it goes on with the first
address of the next one. `deallocuvm32` computes the addresses as the code does, in 32 bits. Up to
`KERNBASE` nothing wraps around: the loop ends, and it has taken out the pages of the range one by
one.
-/

namespace OperatingSystems

namespace Ram

/-! ## Page by page -/

/-- Take out page `n`, if it is there. -/
def clearPage (kend : BitVec 32) (pd : PageDir) (n : ℕ) (r : Ram) :
    Except VmPanic (PageDir × Ram) :=
  match pd.pte n with
  | none => .ok (pd, r)
  | some e =>
    if e.pa = 0 then .error .kfree
    else do
      let r ← r.kfree kend (p2v e.pa)
      return (pd.setPte n none, r)

def clearPages (kend : BitVec 32) : List ℕ → PageDir → Ram → Except VmPanic (PageDir × Ram)
  | [], pd, r => .ok (pd, r)
  | n :: ns, pd, r => do
    let x ← r.clearPage kend pd n
    clearPages kend ns x.1 x.2

/-- The pages from `PGROUNDUP(newsz)` on and below `oldsz`. -/
def pagesBetween (newsz oldsz : ℕ) : List ℕ :=
  List.range' ((newsz + pgSize - 1) / pgSize)
    ((oldsz + pgSize - 1) / pgSize - (newsz + pgSize - 1) / pgSize)

/-! ## In 32 bits -/

def pdx (va : BitVec 32) : BitVec 32 := (va >>> 22) &&& 0x3FF

def pgaddr (d t o : BitVec 32) : BitVec 32 := d <<< 22 ||| t <<< 12 ||| o

def pgroundup (sz : BitVec 32) : BitVec 32 := (sz + (4096 - 1)) &&& ~~~(4096 - 1)

/-- `a += PGSIZE` -/
def nextPage (a : BitVec 32) : BitVec 32 := a + 4096

/-- The loop of `deallocuvm` at address `a`, for at most so many rounds. -/
def deallocLoop32 (kend oldsz : BitVec 32) :
    ℕ → PageDir → BitVec 32 → Ram → Option (Except VmPanic (PageDir × Ram))
  | 0, _, _, _ => none
  | rounds + 1, pd, a, r =>
    if a < oldsz then
      if (pd.table (a.toNat / pgSize / npdEntries)).isNone then
        deallocLoop32 kend oldsz rounds pd (nextPage (pgaddr (pdx a + 1) 0 0 - 4096)) r
      else
        match r.clearPage kend pd (a.toNat / pgSize) with
        | .error e => some (.error e)
        | .ok x => deallocLoop32 kend oldsz rounds x.1 (nextPage a) x.2
    else some (.ok (pd, r))

def deallocuvm32 (kend : BitVec 32) (pd : PageDir) (oldsz newsz : BitVec 32) (r : Ram)
    (rounds : ℕ) :
    Option (Except VmPanic (BitVec 32 × PageDir × Ram)) :=
  if newsz ≥ oldsz then some (.ok (oldsz, pd, r))
  else (deallocLoop32 kend oldsz rounds pd (pgroundup newsz) r).map
    fun x ↦ x.map fun x ↦ (newsz, x.1, x.2)

section Loop

variable {kend a : BitVec 32} {pd pd' : PageDir} {r r' : Ram} {n m b oldsz newsz : ℕ}

theorem clearPages_of_absent (hle : n ≤ m) (h : ∀ i, n ≤ i → i < m → pd.pte i = none) :
    clearPages kend (List.range' n (b - n)) pd r =
      clearPages kend (List.range' m (b - m)) pd r := by
  induction m, hle using Nat.le_induction with
  | base => rfl
  | succ m hm ih =>
    rw [ih fun i hi hlt ↦ h i hi (hlt.trans m.lt_succ_self)]
    by_cases hb : m < b
    · rw [show b - m = b - (m + 1) + 1 by omega, List.range'_succ, clearPages, clearPage,
        h m hm m.lt_succ_self]
      rfl
    · rw [Nat.sub_eq_zero_of_le (not_lt.mp hb), Nat.sub_eq_zero_of_le (by omega)]
      rfl

theorem lt_ceil (h : n * pgSize < oldsz) : n < (oldsz + pgSize - 1) / pgSize := by
  rw [pgSize] at *
  omega

theorem clearPages_cons (h : n * pgSize < oldsz) :
    clearPages kend (List.range' n ((oldsz + pgSize - 1) / pgSize - n)) pd r =
      r.clearPage kend pd n >>= fun x ↦
        clearPages kend
          (List.range' (n + 1) ((oldsz + pgSize - 1) / pgSize - (n + 1))) x.1 x.2 := by
  have hlt := lt_ceil h
  rw [show (oldsz + pgSize - 1) / pgSize - n = (oldsz + pgSize - 1) / pgSize - (n + 1) + 1 by omega,
    List.range'_succ, clearPages]

theorem deallocLoop_eq_clearPages : deallocLoop kend oldsz pd n r =
    clearPages kend (List.range' n ((oldsz + pgSize - 1) / pgSize - n)) pd r := by
  fun_induction deallocLoop kend oldsz pd n r with
  | case1 pd n r hlt htable ih =>
    rw [ih]
    refine (clearPages_of_absent ?_ fun i hi hlt ↦ ?_).symm
    · rw [npdEntries]
      omega
    · refine pd.absent i ?_
      rwa [show i / npdEntries = n / npdEntries by rw [npdEntries] at *; omega,
        ← Option.isNone_iff_eq_none]
  | case2 pd n r hlt htable hnone ih =>
    rw [ih, clearPages_cons hlt, clearPage, hnone]
    rfl
  | case3 pd n r hlt htable e he hpa =>
    rw [clearPages_cons hlt, clearPage, he]
    simp only [if_pos hpa]
    rfl
  | case4 pd n r hlt htable e he hpa ih =>
    rw [clearPages_cons hlt, clearPage, he]
    simp only [if_neg hpa]
    cases r.kfree kend (p2v e.pa) with
    | error e => rfl
    | ok r' => exact ih r'
  | case5 pd n r hge =>
    rw [Nat.sub_eq_zero_of_le (by rw [pgSize] at *; omega)]
    rfl

theorem toNat_pgaddr (ha : a.toNat = n * pgSize) (hn : n * pgSize < kernBase) :
    (nextPage (pgaddr (pdx a + 1) 0 0 - 4096)).toNat
      = (n / npdEntries + 1) * npdEntries * pgSize := by
  have hand : ∀ x : ℕ, x &&& 1023 = x % 1024 := fun x ↦ Nat.and_two_pow_sub_one_eq_mod x 10
  rw [nextPage, BitVec.sub_add_cancel, pgaddr, show (0 : BitVec 32) <<< 12 = 0#32 by rfl,
    BitVec.or_zero, show (0 : BitVec 32) = 0#32 by rfl, BitVec.or_zero, pdx]
  simp only [BitVec.toNat_shiftLeft, BitVec.toNat_add, BitVec.toNat_and, BitVec.toNat_ushiftRight,
    Nat.shiftLeft_eq, Nat.shiftRight_eq_div_pow, ha]
  simp only [BitVec.reduceToNat, hand]
  rw [pgSize, kernBase] at *
  rw [npdEntries]
  omega

theorem toNat_add_pgSize (ha : a.toNat = n * pgSize) (hn : n * pgSize < kernBase) :
    (nextPage a).toNat = (n + 1) * pgSize := by
  rw [nextPage, BitVec.toNat_add, ha]
  simp only [BitVec.reduceToNat]
  rw [pgSize, kernBase] at *
  omega

theorem toNat_pgRoundUp {w : BitVec 32} (h : w.toNat < kernBase) :
    (pgroundup w).toNat = (w.toNat + pgSize - 1) / pgSize * pgSize := by
  have hbit : ∀ k < 32, (4095 : BitVec 32).getLsbD k = decide (k < 12) := by decide
  have hmask : ∀ v : BitVec 32, v &&& ~~~(4095 : BitVec 32) = (v >>> 12) <<< 12 := by
    intro v
    apply BitVec.eq_of_getLsbD_eq
    intro k hk
    rw [BitVec.getLsbD_and, BitVec.getLsbD_not, BitVec.getLsbD_shiftLeft,
      BitVec.getLsbD_ushiftRight, hbit k hk]
    by_cases h12 : k < 12
    · simp [h12]
    · simp [h12, hk, show 12 + (k - 12) = k by omega]
  rw [pgroundup, show (4096 - 1 : BitVec 32) = 4095 by rfl, hmask, BitVec.toNat_shiftLeft,
    BitVec.toNat_ushiftRight, BitVec.toNat_add, Nat.shiftLeft_eq, Nat.shiftRight_eq_div_pow]
  rw [kernBase] at h
  rw [pgSize]
  simp only [BitVec.reduceToNat]
  omega

theorem deallocLoop32_eq {old : BitVec 32} (hold : old.toNat = oldsz) (hsz : oldsz ≤ kernBase)
    (ha : a.toNat = n * pgSize) : ∃ rounds, deallocLoop32 kend old rounds pd a r =
      some (deallocLoop kend oldsz pd n r) := by
  have hpage : ∀ {a : BitVec 32} {n}, a.toNat = n * pgSize → a.toNat / pgSize = n := by
    intro a n ha
    rw [ha]
    exact Nat.mul_div_cancel n (by decide)
  have hlt_iff : ∀ {a : BitVec 32} {n}, a.toNat = n * pgSize →
      (a < old ↔ n * pgSize < oldsz) := by
    intro a n ha
    rw [BitVec.lt_def, ha, hold]
  fun_induction deallocLoop kend oldsz pd n r generalizing a with
  | case1 pd n r hlt htable ih =>
    have hnext := toNat_pgaddr ha (hlt.trans_le hsz)
    obtain ⟨rounds, h⟩ := ih hnext
    refine ⟨rounds + 1, ?_⟩
    rw [deallocLoop32, if_pos ((hlt_iff ha).mpr hlt), hpage ha, if_pos htable, h]
  | case2 pd n r hlt htable hnone ih =>
    have hnext := toNat_add_pgSize ha (hlt.trans_le hsz)
    obtain ⟨rounds, h⟩ := ih hnext
    refine ⟨rounds + 1, ?_⟩
    rw [deallocLoop32, if_pos ((hlt_iff ha).mpr hlt), hpage ha, if_neg htable, clearPage, hnone]
    exact h
  | case3 pd n r hlt htable e he hpa =>
    refine ⟨1, ?_⟩
    rw [deallocLoop32, if_pos ((hlt_iff ha).mpr hlt), hpage ha, if_neg htable, clearPage, he]
    simp only [if_pos hpa]
  | case4 pd n r hlt htable e he hpa ih =>
    have hnext := toNat_add_pgSize ha (hlt.trans_le hsz)
    cases hr : r.kfree kend (p2v e.pa) with
    | error e =>
      refine ⟨1, ?_⟩
      rw [deallocLoop32, if_pos ((hlt_iff ha).mpr hlt), hpage ha, if_neg htable, clearPage, he]
      simp only [if_neg hpa, hr]
      rfl
    | ok r' =>
      obtain ⟨rounds, h⟩ := ih r' hnext
      refine ⟨rounds + 1, ?_⟩
      rw [deallocLoop32, if_pos ((hlt_iff ha).mpr hlt), hpage ha, if_neg htable, clearPage, he]
      simp only [if_neg hpa, hr]
      exact h
  | case5 pd n r hge =>
    refine ⟨1, ?_⟩
    rw [deallocLoop32, if_neg (mt (hlt_iff ha).mp hge)]

theorem exists_deallocuvm32 {oldsz newsz : BitVec 32} (hsz : oldsz.toNat ≤ kernBase) : ∃ rounds,
    deallocuvm32 kend pd oldsz newsz r rounds =
      some ((clearPages kend (pagesBetween newsz.toNat oldsz.toNat) pd r).map fun x ↦
        (if newsz < oldsz then newsz else oldsz, x.1, x.2)) := by
  by_cases hlt : newsz < oldsz
  · have hnew : newsz.toNat < kernBase := lt_of_lt_of_le hlt hsz
    obtain ⟨rounds, h⟩ : ∃ rounds, deallocLoop32 kend oldsz rounds pd (pgroundup newsz) r
        = some (deallocLoop kend oldsz.toNat pd ((newsz.toNat + pgSize - 1) / pgSize) r) :=
      deallocLoop32_eq rfl hsz (toNat_pgRoundUp hnew)
    refine ⟨rounds, ?_⟩
    rw [deallocuvm32, if_neg (BitVec.not_le.mpr hlt), h, deallocLoop_eq_clearPages]
    simp only [if_pos hlt]
    rfl
  · refine ⟨0, ?_⟩
    have hle : oldsz ≤ newsz := BitVec.not_lt.mp hlt
    have hnil : pagesBetween newsz.toNat oldsz.toNat = [] := by
      have hceil : (oldsz.toNat + pgSize - 1) / pgSize ≤ (newsz.toNat + pgSize - 1) / pgSize :=
        Nat.div_le_div_right (Nat.sub_le_sub_right (Nat.add_le_add_right hle _) 1)
      rw [pagesBetween, Nat.sub_eq_zero_of_le hceil]
      rfl
    rw [deallocuvm32, if_pos hle, hnil]
    simp only [if_neg hlt]
    rfl

end Loop

end Ram

/-! ## The pages that move -/

namespace PageDir

def tables (pd : PageDir) : Multiset (BitVec 32) :=
  ∑ i ∈ Finset.range npdEntries, tablePage (pd.table i)

def mapped (pd : PageDir) (ns : Finset ℕ) : Multiset (BitVec 32) := ∑ n ∈ ns, mappedPage (pd.pte n)

/-- The directory is in the same page, and no table is lost. -/
def Extends (pd pd' : PageDir) : Prop :=
  pd'.page = pd.page ∧ ∀ i t, pd.table i = some t → pd'.table i = some t

variable {img : KernelImage} {pd pd' pd'' : PageDir} {s s' s'' : Pool} {oldsz newsz size : ℕ}

theorem extends_allocuvm (h : pd.allocuvm img oldsz newsz s = .ok (size, pd', s')) :
    pd.Extends pd' := by
  refine allocuvm_keeps (P := pd.Extends) (fun _ hmap hpd ↦ ?_) (fun hsz hdealloc hpd ↦ ?_)
    ⟨rfl, fun _ _ ↦ id⟩ h
  · refine mapLoop_keeps (P := fun _ pd' _ ↦ pd.Extends pd') (fun _ _ hwalk hpd ↦ ?_)
      (fun _ _ _ hpd ↦ hpd) hpd hmap
    rcases walkpgdir_cases hwalk with ⟨rfl, -⟩ | ⟨t, hnone, -, rfl⟩
    · exact hpd
    · refine ⟨hpd.1, fun i t' ht' ↦ ?_⟩
      have hne : i ≠ _ :=
        fun heq ↦ Option.some_ne_none t' ((hpd.2 i t' ht').symm.trans (heq ▸ hnone))
      exact (Function.update_of_ne hne _ _).trans (hpd.2 i t' ht')
  · obtain ⟨-, hpage, htable, -⟩ := deallocuvm_spec hsz hdealloc
    exact ⟨hpage.trans hpd.1, htable ▸ hpd.2⟩

theorem free_add_tables (hacc : pd'.account s' = pd.account s) (hpage : pd'.page = pd.page)
    (hpte : ∀ n, pd'.pte n = pd.pte n) :
    (s'.free : Multiset (BitVec 32)) + pd'.tables = s.free + pd.tables := by
  rw [account, account, pages, pages, hpage] at hacc
  simp only [hpte, ← add_assoc] at hacc
  rw [add_right_cancel_iff] at hacc
  refine add_right_cancel (b := {pd.page}) ?_
  rwa [add_right_comm, add_right_comm _ pd.tables]

theorem free_of_cleared {ns : Finset ℕ} (hacc : pd'.account s' = pd.account s)
    (hpage : pd'.page = pd.page) (htable : pd'.table = pd.table) (hns : ns ⊆ Finset.range userPages)
    (hpte : ∀ n, pd'.pte n = if n ∈ ns then none else pd.pte n) :
    (s'.free : Multiset (BitVec 32)) = s.free + pd.mapped ns := by
  have hsum : ∑ n ∈ Finset.range userPages, mappedPage (pd'.pte n)
      = ∑ n ∈ Finset.range userPages \ ns, mappedPage (pd.pte n) := by
    rw [← Finset.sum_sdiff hns, Finset.sum_eq_zero (s := ns), add_zero]
    · refine Finset.sum_congr rfl fun n hn ↦ ?_
      rw [hpte, if_neg (Finset.mem_sdiff.mp hn).2]
    · intro n hn
      rw [hpte, if_pos hn]
      rfl
  rw [account, account, pages, pages, hpage, htable, hsum, ← Finset.sum_sdiff hns] at hacc
  rw [mapped]
  refine add_right_cancel (b := {pd.page} + ∑ i ∈ Finset.range npdEntries, tablePage (pd.table i)
    + ∑ n ∈ Finset.range userPages \ ns, mappedPage (pd.pte n)) (hacc.trans ?_)
  abel

theorem mem_Ico_iff {n : ℕ} :
    n ∈ Finset.Ico ((oldsz + pgSize - 1) / pgSize) ((newsz + pgSize - 1) / pgSize) ↔
      InRange ((oldsz + pgSize - 1) / pgSize) newsz n := by
  rw [Finset.mem_Ico, InRange, pgSize]
  omega

variable {r : Ram}

theorem exists_allocuvm (newsz : ℕ) (hl : Ledger img.kend (pd.account r.pool))
    (hnone : ∀ n, n < userPages → oldsz ≤ n * pgSize → pd.pte n = none) :
    ∃ size pd' r', r.allocuvm img pd oldsz newsz = .ok (size, pd', r') := by
  cases h : r.allocuvm img pd oldsz newsz with
  | ok x => exact ⟨x.1, x.2.1, x.2.2, rfl⟩
  | error e =>
    have hpool : pd.allocuvm img oldsz newsz r.pool = .error e := by
      rw [← Ram.allocuvm_pool, h]
      rfl
    obtain ⟨-, n, hn, hle, hsome⟩ := allocuvm_error hl hpool
    rw [hnone n hn hle] at hsome
    cases hsome

theorem exists_deallocuvm_of_le (hle : oldsz ≤ newsz) (hsz : newsz ≤ kernBase)
    (hl : Ledger img.kend (pd.account r.pool)) :
    ∃ pd' r', r.deallocuvm img.kend pd newsz oldsz = .ok (oldsz, pd', r') := by
  obtain ⟨⟨size, pd', s'⟩, hd⟩ := exists_deallocuvm oldsz hsz hl
  rw [← Ram.deallocuvm_pool] at hd
  obtain ⟨r', hd, -⟩ := Ram.exists_of_pool hd
  suffices heq : size = oldsz from ⟨pd', r', heq ▸ hd⟩
  rw [Ram.deallocuvm] at hd
  split at hd
  · next hge =>
    cases hd
    exact le_antisymm hge hle
  · obtain ⟨x, -, hd⟩ := bind_eq_ok_iff.mp hd
    cases hd
    rfl

end PageDir

open PageDir in
/-- **`allocuvm` rolls back, and `deallocuvm` undoes it.** When it fails, only tables have been
added. When it succeeds, it has mapped the pages of the range to pages of zeros of their own, and
`deallocuvm` gives these back. In 32 bits, `deallocuvm` ends and takes out the pages of any range
one by one. -/
theorem allocuvm_undone (img : KernelImage) :
    (∀ (pd : PageDir) (r : Ram) (oldsz newsz : ℕ), Ledger img.kend (pd.account r.pool) →
      oldsz ≤ newsz → newsz < kernBase →
      (∀ n, n < userPages → oldsz ≤ n * pgSize → pd.pte n = none) →
      ∃ size pd' r', r.allocuvm img pd oldsz newsz = .ok (size, pd', r') ∧ pd.Extends pd' ∧
        (size = 0 ∧ (∀ n, pd'.pte n = pd.pte n) ∧
            (r'.pool.free : Multiset (BitVec 32)) + pd'.tables = r.pool.free + pd.tables ∨
          size = newsz ∧
            (∀ n, pd'.pte n = pd.pte n ∧ ¬InRange ((oldsz + pgSize - 1) / pgSize) newsz n ∨
              InRange ((oldsz + pgSize - 1) / pgSize) newsz n ∧ pd.pte n = none ∧
                ∃ e, pd'.pte n = some e ∧ e.perm = ⟨true, true⟩ ∧ r'.frame (p2v e.pa) = fun _ ↦ 0) ∧
            (∀ n m e e', n < userPages → m < userPages → pd'.pte n = some e → pd'.pte m = some e' →
              e'.pa = e.pa → m = n) ∧
            ∃ pd'' r'', r'.deallocuvm img.kend pd' newsz oldsz = .ok (oldsz, pd'', r'') ∧
              (∀ n, pd''.pte n = pd.pte n) ∧ pd''.table = pd'.table ∧
              (r''.pool.free : Multiset (BitVec 32)) = r'.pool.free + pd'.mapped
                (Finset.Ico ((oldsz + pgSize - 1) / pgSize) ((newsz + pgSize - 1) / pgSize)) ∧
              (r''.pool.free : Multiset (BitVec 32)) + pd''.tables = r.pool.free + pd.tables)) ∧
    ∀ (pd : PageDir) (r : Ram) (oldsz newsz : BitVec 32), oldsz.toNat ≤ kernBase →
      ∃ rounds, Ram.deallocuvm32 img.kend pd oldsz newsz r rounds =
        some ((Ram.clearPages img.kend (Ram.pagesBetween newsz.toNat oldsz.toNat) pd r).map fun x ↦
          (if newsz < oldsz then newsz else oldsz, x.1, x.2)) := by
  refine ⟨fun pd r oldsz newsz hl hle hnew hnone ↦ ?_,
    fun pd r oldsz newsz ↦ Ram.exists_deallocuvm32⟩
  have habsent : ∀ n, InRange ((oldsz + pgSize - 1) / pgSize) newsz n → pd.pte n = none :=
    fun n hn ↦
    hnone n (lt_userPages hn.2 hnew.le) (le_of_inRange hn)
  obtain ⟨size, pd', r', halloc⟩ := exists_allocuvm newsz hl hnone
  have hpool := Ram.pool_of_allocuvm halloc
  have hacc := allocuvm_spec hpool
  have hext := extends_allocuvm hpool
  refine ⟨size, pd', r', halloc, hext, ?_⟩
  rw [Ram.allocuvm, if_neg (not_le.mpr hnew), if_neg (not_lt.mpr hle)] at halloc
  rw [PageDir.allocuvm, if_neg (not_le.mpr hnew), if_neg (not_lt.mpr hle)] at hpool
  have hnodup : r.pool.free.Nodup :=
    Multiset.coe_nodup.mp (Multiset.nodup_of_le (Multiset.le_add_right _ _) hl.nodup)
  rcases Ram.allocLoop_contents hnew.le hnodup halloc with ⟨rfl, -, hall⟩ | ⟨rfl, -⟩
  · refine .inr ⟨rfl, fun n ↦ ?_, fun n m e e' ↦ ?_, ?_⟩
    · exact (hall n).imp_right fun h ↦ ⟨h.1, habsent n h.1, h.2⟩
    · exact eq_of_pa_eq ((hacc ▸ hl : Ledger _ _).mono (Multiset.le_add_left _ _))
    · obtain ⟨pd'', r'', hdealloc⟩ := exists_deallocuvm_of_le hle hnew.le (hacc ▸ hl : Ledger _ _)
      obtain ⟨hacc', hpage, htable, hpte⟩ :=
        deallocuvm_spec hnew.le (Ram.pool_of_deallocuvm hdealloc)
      have hback : ∀ n, pd''.pte n = pd.pte n := by
        intro n
        rw [hpte]
        split
        · next hn => exact (habsent n hn).symm
        · next hn => exact (hall n).elim And.left fun h ↦ absurd h.1 hn
      refine ⟨pd'', r'', hdealloc, hback, htable, ?_, ?_⟩
      · refine free_of_cleared hacc' hpage htable (fun n hn ↦ ?_) fun n ↦ ?_
        · exact Finset.mem_range.mpr (lt_userPages (mem_Ico_iff.mp hn).2 hnew.le)
        · rw [hpte]
          exact if_congr mem_Ico_iff.symm rfl rfl
      · exact free_add_tables (hacc'.trans hacc) (hpage.trans hext.1) hback
  · have hsame : ∀ n, pd'.pte n = pd.pte n := by
      intro n
      rcases ((allocLoop_outcome hnew.le le_rfl).of_ok hpool).2 with ⟨h0, hall⟩ | ⟨-, hall⟩
      · exact (hall n).elim And.left fun h ↦ absurd h.1.2 (h0 ▸ Nat.not_lt_zero _)
      · rw [hall n]
        split
        · next hn => exact (habsent n hn).symm
        · rfl
    exact .inl ⟨rfl, hsame, free_add_tables hacc hext.1 hsame⟩

open PageDir in
/-- A process without pages gets one, which is zero, and gives it back. -/
theorem allocuvm_undone_page : ∃ (img : KernelImage) (pd pd' pd'' : PageDir) (r r' r'' : Ram)
    (e : Pte),
    r.allocuvm img pd 0 pgSize = .ok (pgSize, pd', r') ∧ pd'.pte 0 = some e ∧
      r'.frame (p2v e.pa) = (fun _ ↦ 0) ∧
      r'.deallocuvm img.kend pd' pgSize 0 = .ok (0, pd'', r'') ∧ ∀ n, pd''.pte n = pd.pte n := by
  obtain ⟨pd, s, hsetup, hready, hempty⟩ := Kernel.exists_setupkvm_somePages
  have hacc : pd.account s = (Kernel.somePages : Multiset (BitVec 32)) := setupkvm_spec hsetup
  obtain ⟨size, pd', r', halloc, -, hcases⟩ := (allocuvm_undone Kernel.someImage).1 pd
    ⟨s, fun _ _ ↦ 0⟩ 0 pgSize (hacc ▸ Kernel.ledger_somePages) (Nat.zero_le _) (by decide)
    fun n hn _ ↦ hempty n hn
  have hone : 0 + 1 ≤ userPages := by
    rw [userPages]
    decide
  obtain ⟨pd₁, s₁, hloop, -⟩ := hready.allocLoop Kernel.someImage 0 (n := 0) hone
    fun m _ hm ↦ hempty m (by omega)
  have hpool := Ram.pool_of_allocuvm halloc
  rw [PageDir.allocuvm, if_neg (by decide), if_neg (by decide)] at hpool
  cases hloop.symm.trans hpool
  obtain ⟨-, hall, -, pd'', r'', hdealloc, hsame, -⟩ :=
    hcases.resolve_left fun h ↦ absurd h.1 (by decide)
  obtain ⟨-, -, e, he, -, hzero⟩ := (hall 0).resolve_left fun h ↦ h.2 ⟨Nat.zero_le _, by decide⟩
  exact ⟨_, pd, pd', pd'', _, r', r'', e, halloc, he, hzero, hdealloc, hsame⟩

end OperatingSystems
