import OperatingSystems.Vm.Lineage
import OperatingSystems.Vm.Untouched

/-!
# Growing and shrinking a process

`growproc` adds a signed number to the size of a process, as unsigned numbers, and takes a size of 0
from `allocuvm` or `deallocuvm` for a failure. A failing call of `allocuvm` leaves everything as it
was, after any number of pages, and a call that succeeds does what was asked for.

`deallocuvm` has no failure. A process that gives back all its memory loses its pages, is told that
this failed, and keeps its size. If it gives back more than it has, the sum is beyond its size,
nothing is done, and it is told that it succeeded. These are the only calls that go wrong.
-/

namespace OperatingSystems

/-- Each page of `pd'` is a page of `pd` with the same contents, or it is new and zero. -/
def PageDir.Carries (pd : PageDir) (r : Ram) (pd' : PageDir) (r' : Ram) : Prop :=
  ∀ m e, m < userPages → pd'.pte m = some e →
    pd.pte m = some e ∧ r'.frame (p2v e.pa) = r.frame (p2v e.pa) ∨
    pd.pte m = none ∧ r'.frame (p2v e.pa) = fun _ ↦ 0

variable {s : Pool}

namespace Ram

/-- `growproc` in a process, with what it returns. -/
def growproc (img : KernelImage) (q : VmProc) (n : BitVec 32) (r : Ram) :
    Except VmPanic (BitVec 32 × VmProc × Ram) :=
  let newsz := (q.sz + n.toNat) % 2 ^ 32
  if 0 < n.toInt then do
    let (size, pd, r) ← r.allocuvm img q.pgdir q.sz newsz
    if size = 0 then return (-1, { q with pgdir := pd }, r)
    else return (0, { q with pgdir := pd, sz := size }, r)
  else if n.toInt < 0 then do
    let (size, pd, r) ← r.deallocuvm img.kend q.pgdir q.sz newsz
    if size = 0 then return (-1, { q with pgdir := pd }, r)
    else return (0, { q with pgdir := pd, sz := size }, r)
  else .ok (0, q, r)

/-- The outcome of a call of `growproc` is as it should be: on success the size has changed by `n`,
and the process has the pages below it, each as it was or new and zero; on failure it has the pages
and the size it had. -/
def GrowsExactly (q : VmProc) (n : BitVec 32) (r : Ram) (ret : BitVec 32) (q' : VmProc) (r' : Ram) :
    Prop :=
  q.pgdir.Carries r q'.pgdir r' ∧
    (ret = 0 ∧ (q'.sz : ℤ) = q.sz + n.toInt ∧ q'.pgdir.Laid (pgRoundUp q'.sz) ∨
      ret = -1 ∧ q'.sz = q.sz ∧ ∀ m, m < userPages → q'.pgdir.pte m = q.pgdir.pte m)

variable {img : KernelImage} {r r' : Ram} {pd pd' : PageDir} {sz newsz size : ℕ} {q q' : VmProc}
  {n ret : BitVec 32}

/-! ## Without contents -/

theorem pool_of_allocuvm (h : r.allocuvm img pd sz newsz = .ok (size, pd', r')) :
    pd.allocuvm img sz newsz r.pool = .ok (size, pd', r'.pool) := by
  rw [← allocuvm_pool, h]
  rfl

theorem pool_of_deallocuvm (h : r.deallocuvm img.kend pd sz newsz = .ok (size, pd', r')) :
    pd.deallocuvm img.kend sz newsz r.pool = .ok (size, pd', r'.pool) := by
  rw [← deallocuvm_pool, h]
  rfl

/-- The kernel that only counts pages takes the same steps. -/
theorem growproc_pool {k : Kernel} {p : Fin nproc} (hq : k.proc p = some q) (hr : r.pool = k.pool) :
    (r.growproc img q n).map (fun x ↦ k.put p (some x.2.1) x.2.2.pool) = k.growproc img p q n := by
  rw [growproc, Kernel.growproc, ← hr]
  dsimp only
  split_ifs
  · refine map_bind_of allocuvm_pool fun x ↦ ?_
    dsimp only [Prod.map_fst, id]
    split_ifs <;> rfl
  · refine map_bind_of deallocuvm_pool fun x ↦ ?_
    dsimp only [Prod.map_fst, id]
    split_ifs <;> rfl
  · change Except.ok (k.put p (some q) r.pool) = _
    rw [Kernel.put, hr, ← hq, Function.update_eq_self]

theorem exists_of_pool {x : Except VmPanic (ℕ × PageDir × Ram)}
    (h : x.map (Prod.map id (Prod.map id Ram.pool)) = .ok (size, pd', s)) :
    ∃ r', x = .ok (size, pd', r') ∧ r'.pool = s := by
  obtain ⟨⟨size₁, pd₁, r₁⟩, hx, heq⟩ := map_eq_ok_iff.mp h
  cases heq
  exact ⟨r₁, hx, rfl⟩

end Ram

/-! ## The helpers on a space -/

namespace PageDir

variable {pd : PageDir} {sz newsz m : ℕ}

theorem le_of_inRange (h : InRange ((sz + pgSize - 1) / pgSize) newsz m) : sz ≤ m * pgSize := by
  obtain ⟨hm, -⟩ := h
  rw [pgSize] at *
  omega

theorem Laid.eq_none (h : pd.Laid sz) (hm : m < userPages) (hle : sz ≤ m * pgSize) :
    pd.pte m = none := by
  rw [← Option.not_isSome_iff_eq_none, h m hm]
  exact not_lt.mpr hle

end PageDir

namespace Space

variable {img : KernelImage} {r r' : Ram} {pd pd' : PageDir} {sz sz' newsz size : ℕ}

theorem nodup_free (h : Space img sz pd s) : s.free.Nodup :=
  Multiset.coe_nodup.mp (Multiset.nodup_of_le (Multiset.le_add_right _ _) h.ledger.nodup)

theorem frame_eq (h : Space img sz pd r.pool) (h' : Space img sz' pd' r'.pool)
    (hun : Ram.Untouched r r') {m m' : ℕ} {e : Pte} (hm : m < userPages) (hm' : m' < userPages)
    (he : pd.pte m = some e) (he' : pd'.pte m' = some e) :
    r'.frame (p2v e.pa) = r.frame (p2v e.pa) :=
  hun _ (h.ledger.notMem_free hm he) (h'.ledger.notMem_free hm' he')

/-- **`allocuvm` is atomic.** It maps pages of zeros up to the new size, or the directory is as it
was. -/
theorem allocuvm_carries (h : Space img sz pd r.pool) (hle : sz ≤ newsz) : ∃ size pd' r',
    r.allocuvm img pd sz newsz = .ok (size, pd', r') ∧ pd.Carries r pd' r' ∧
      (size = newsz ∧ newsz < kernBase ∧ Space img newsz pd' r'.pool ∨
        size = 0 ∧ Space img sz pd' r'.pool ∧ ∀ m, m < userPages → pd'.pte m = pd.pte m) := by
  obtain ⟨size, pd', s', hpool, hspace⟩ := h.allocuvm newsz
  rw [← Ram.allocuvm_pool] at hpool
  obtain ⟨r', halloc, rfl⟩ := Ram.exists_of_pool hpool
  refine ⟨size, pd', r', halloc, ?_⟩
  have hun := Ram.untouched_allocuvm h.nodup_free halloc
  have hpool := Ram.pool_of_allocuvm halloc
  have hledger : Ledger img.kend (pd'.account r'.pool) :=
    (PageDir.allocuvm_spec hpool).symm ▸ h.ledger
  have hsame (heq : ∀ m, m < userPages → pd'.pte m = pd.pte m) : pd.Carries r pd' r' :=
    fun m e hm he ↦ by
      have he₀ := heq m hm ▸ he
      exact .inl ⟨he₀, hun _ (h.ledger.notMem_free hm he₀) (hledger.notMem_free hm he)⟩
  rw [Ram.allocuvm] at halloc
  rw [PageDir.allocuvm] at hpool
  by_cases hnew : newsz ≥ kernBase
  · rw [if_pos hnew] at halloc
    cases halloc
    exact ⟨hsame fun _ _ ↦ rfl, .inr ⟨rfl, h, fun _ _ ↦ rfl⟩⟩
  · rw [if_neg hnew, if_neg (not_lt.mpr hle)] at halloc hpool
    have hnew' := not_le.mp hnew
    rcases Ram.allocLoop_contents hnew'.le h.nodup_free halloc with ⟨rfl, htakes, hall⟩ | ⟨rfl, -⟩
    · refine ⟨fun m e hm he ↦ ?_, .inl ⟨rfl, hnew', ?_⟩⟩
      · rcases hall m with ⟨heq, -⟩ | ⟨hin, e', he', -, hzero⟩
        · have he₀ := heq ▸ he
          exact .inl ⟨he₀, htakes.frame _ (h.ledger.notMem_free hm he₀)⟩
        · obtain rfl : e' = e := Option.some.inj (he'.symm.trans he)
          exact .inr ⟨h.laid.eq_none hm (PageDir.le_of_inRange hin), hzero⟩
      · rcases hspace with ⟨h0, hspace⟩ | ⟨-, hspace⟩
        · rwa [le_antisymm hle (h0.le.trans (Nat.zero_le _))] at hspace
        · exact hspace
    · have heq : ∀ m, m < userPages → pd'.pte m = pd.pte m := fun m hm ↦ by
        rcases ((PageDir.allocLoop_outcome hnew'.le le_rfl).of_ok hpool).2 with ⟨h0, hall⟩
          | ⟨-, hall⟩
        · rcases hall m with ⟨heq, -⟩ | ⟨hin, -⟩
          · exact heq
          · exact absurd hin.2 (h0 ▸ Nat.not_lt_zero _)
        · rw [hall m]
          split
          · next hin => exact (h.laid.eq_none hm (PageDir.le_of_inRange hin)).symm
          · rfl
      refine ⟨hsame heq, .inr ⟨rfl, ⟨hledger, fun m hm ↦ ?_, h.size⟩, heq⟩⟩
      rw [heq m hm]
      exact h.laid m hm

/-- **`deallocuvm` is exact.** The pages behind the new size are gone, and the others as they
were. -/
theorem deallocuvm_carries (h : Space img sz pd r.pool) (newsz : ℕ) : ∃ size pd' r',
    r.deallocuvm img.kend pd sz newsz = .ok (size, pd', r') ∧ pd.Carries r pd' r' ∧
      Space img size pd' r'.pool ∧ size = min sz newsz := by
  obtain ⟨size, pd', s', hpool, hspace⟩ := h.deallocuvm newsz
  rw [← Ram.deallocuvm_pool] at hpool
  obtain ⟨r', hdealloc, rfl⟩ := Ram.exists_of_pool hpool
  have hpte := (PageDir.deallocuvm_spec h.size (Ram.pool_of_deallocuvm hdealloc)).2.2.2
  refine ⟨size, pd', r', hdealloc, fun m e hm he ↦ ?_, hspace, ?_⟩
  · rw [hpte m] at he
    split at he
    · cases he
    · have he' : pd'.pte m = some e := by rwa [hpte m, if_neg (by assumption)]
      exact .inl ⟨he, h.frame_eq hspace (Ram.frees_deallocuvm hdealloc).untouched hm hm he he'⟩
  · rw [Ram.deallocuvm] at hdealloc
    split at hdealloc
    · next hge =>
      cases hdealloc
      exact (min_eq_left hge).symm
    · next hlt =>
      obtain ⟨⟨pd₁, r₁⟩, -, hdealloc⟩ := bind_eq_ok_iff.mp hdealloc
      cases hdealloc
      exact (min_eq_right (not_le.mp hlt).le).symm

end Space

/-! ## `growproc` -/

namespace Ram

variable {img : KernelImage} {r r' : Ram} {q q' : VmProc} {n ret : BitVec 32}

theorem carries_refl (pd : PageDir) (r : Ram) : pd.Carries r pd r :=
  fun _ _ _ he ↦ .inl ⟨he, rfl⟩

theorem growproc_of_pos (h : Space img q.sz q.pgdir r.pool) (hn : 0 < n.toInt) :
    ∃ ret q' r', r.growproc img q n = .ok (ret, q', r') ∧ GrowsExactly q n r ret q' r' := by
  have hsz := h.size
  have htoInt := BitVec.toInt_eq_toNat_cond n
  have hsum : (q.sz + n.toNat) % 2 ^ 32 = q.sz + n.toNat := by
    rw [kernBase] at hsz
    omega
  obtain ⟨size, pd', r', halloc, hcarries, hcase⟩ :=
    h.allocuvm_carries (Nat.le_add_right q.sz n.toNat)
  rw [growproc, if_pos hn, hsum]
  rcases hcase with ⟨rfl, hlt, hspace⟩ | ⟨rfl, hspace, heq⟩
  · refine ⟨0, { q with pgdir := pd', sz := q.sz + n.toNat }, r',
      bind_eq_ok_iff.mpr ⟨_, halloc, if_neg (by omega)⟩, hcarries,
      .inl ⟨rfl, ?_, hspace.laid.round⟩⟩
    change ((q.sz + n.toNat : ℕ) : ℤ) = _
    omega
  · exact ⟨-1, { q with pgdir := pd' }, r', bind_eq_ok_iff.mpr ⟨_, halloc, if_pos rfl⟩, hcarries,
      .inr ⟨rfl, rfl, heq⟩⟩

theorem growsExactly_zero (h : Space img q.sz q.pgdir r.pool) (hn : n.toInt = 0) :
    GrowsExactly q n r 0 q r := by
  refine ⟨carries_refl _ _, .inl ⟨rfl, ?_, h.laid.round⟩⟩
  rw [hn, add_zero]

theorem growproc_of_neg (h : Space img q.sz q.pgdir r.pool) (hn : n.toInt < 0) :
    ∃ ret size pd' r', r.growproc img q n
        = .ok (ret, { q with pgdir := pd', sz := if size = 0 then q.sz else size }, r') ∧
      ret = (if size = 0 then -1 else 0) ∧ q.pgdir.Carries r pd' r' ∧
      Space img size pd' r'.pool ∧
        size = if 0 ≤ q.sz + n.toInt then q.sz - n.toInt.natAbs else q.sz := by
  have hsz := h.size
  have htoInt := BitVec.toInt_eq_toNat_cond n
  obtain ⟨size, pd', r', hdealloc, hcarries, hspace, hsize⟩ :=
    h.deallocuvm_carries ((q.sz + n.toNat) % 2 ^ 32)
  rw [growproc, if_neg (not_lt.mpr hn.le), if_pos hn]
  refine ⟨if size = 0 then -1 else 0, size, pd', r', bind_eq_ok_iff.mpr ⟨_, hdealloc, ?_⟩, rfl,
    hcarries, hspace, ?_⟩
  · by_cases h0 : size = 0
    · simp only [if_pos h0]
      rfl
    · simp only [if_neg h0]
      rfl
  · rw [hsize]
    rw [kernBase] at hsz
    split <;> omega

theorem growsExactly_of_neg (h : Space img q.sz q.pgdir r.pool) (hn : n.toInt < 0)
    (hsum : q.sz = 0 ∨ 0 < q.sz + n.toInt) :
    ∃ ret q' r', r.growproc img q n = .ok (ret, q', r') ∧ GrowsExactly q n r ret q' r' := by
  obtain ⟨ret, size, pd', r', hgrow, rfl, hcarries, hspace, hsize⟩ := growproc_of_neg h hn
  refine ⟨_, _, r', hgrow, hcarries, ?_⟩
  by_cases h0 : size = 0
  · -- there was nothing to give back
    have hq : q.sz = 0 := by
      by_contra hq
      rw [if_pos (by omega)] at hsize
      omega
    refine .inr ⟨if_pos h0, if_pos h0, fun m hm ↦ ?_⟩
    rw [h.laid.eq_none hm (hq ▸ Nat.zero_le _)]
    exact hspace.laid.eq_none hm (h0 ▸ Nat.zero_le _)
  · have hpos : 0 < (q.sz : ℤ) + n.toInt := hsum.resolve_left fun hq ↦ h0 <| by
      rw [hsize, hq, Nat.zero_sub, ite_self]
    rw [if_pos hpos.le] at hsize
    refine .inl ⟨if_neg h0, ?_, ?_⟩
    · rw [if_neg h0]
      change (size : ℤ) = _
      omega
    · rw [if_neg h0]
      exact hspace.laid.round

theorem not_growsExactly_of_neg (h : Space img q.sz q.pgdir r.pool) (hq : 0 < q.sz)
    (hsum : q.sz + n.toInt ≤ 0) :
    ¬∃ ret q' r', r.growproc img q n = .ok (ret, q', r') ∧ GrowsExactly q n r ret q' r' := by
  rintro ⟨ret, q', r', hgrow, -, hexact⟩
  obtain ⟨ret', size, pd', r'', hgrow', rfl, -, hspace, hsize⟩ :=
    growproc_of_neg h (n := n) (by omega)
  rw [hgrow] at hgrow'
  cases hgrow'
  rcases hsum.lt_or_eq with hlt | heq
  · -- more than it has: it is told that it succeeded
    rw [if_neg (by omega)] at hsize
    rcases hexact with ⟨-, hsz, -⟩ | ⟨hret, -⟩
    · rw [if_neg (by omega)] at hsz
      omega
    · rw [if_neg (by omega)] at hret
      exact absurd hret (by decide)
  · -- all it has: the first page is gone, and it is told that nothing happened
    rw [if_pos heq.ge] at hsize
    obtain rfl : size = 0 := by omega
    rcases hexact with ⟨hret, -⟩ | ⟨-, -, hpte⟩
    · exact absurd hret (by decide)
    · have hpos : 0 < userPages := PageDir.lt_userPages (by omega) h.size
      have hfirst := (h.laid 0 hpos).mpr (by omega)
      rw [← hpte 0 hpos, hspace.laid.eq_none hpos (Nat.zero_le _)] at hfirst
      cases hfirst

end Ram

/-- **`growproc` is exact and atomic** in the processes that do not give back all they have. -/
theorem growproc_exact_iff {img : KernelImage} {q : VmProc} {r : Ram}
    (h : Space img q.sz q.pgdir r.pool) (n : BitVec 32) :
    (∃ ret q' r', r.growproc img q n = .ok (ret, q', r') ∧ Ram.GrowsExactly q n r ret q' r') ↔
      0 ≤ n.toInt ∨ q.sz = 0 ∨ 0 < q.sz + n.toInt := by
  constructor
  · intro hexact
    by_contra hn
    push Not at hn
    obtain ⟨-, hq, hsum⟩ := hn
    exact Ram.not_growsExactly_of_neg h (Nat.pos_of_ne_zero hq) hsum hexact
  · intro hn
    rcases lt_trichotomy n.toInt 0 with hneg | hzero | hpos
    · exact Ram.growsExactly_of_neg h hneg (hn.resolve_left (not_le.mpr hneg))
    · refine ⟨0, q, r, ?_, Ram.growsExactly_zero h hzero⟩
      rw [Ram.growproc, if_neg hzero.not_gt, if_neg hzero.not_lt]
    · exact Ram.growproc_of_pos h hpos

/-- A process of two pages gives one back. -/
theorem growproc_exact_shrink : ∃ (img : KernelImage) (q : VmProc) (r : Ram),
    q.sz = 2 * pgSize ∧ ∃ ret q' r', r.growproc img q (-4096) = .ok (ret, q', r') ∧
      Ram.GrowsExactly q (-4096) r ret q' r' := by
  obtain ⟨pd, s, hspace, -⟩ := Kernel.exists_space
  exact ⟨Kernel.someImage, ⟨initproc, false, 0, pd, 2 * pgSize⟩, ⟨s, fun _ _ ↦ 0⟩, rfl,
    (growproc_exact_iff hspace (-4096)).mpr (.inr (.inr
      (show 0 < ((2 * pgSize : ℕ) : ℤ) + (-4096 : BitVec 32).toInt by decide)))⟩

/-- A process of two pages gives both back, or one more. -/
theorem growproc_not_exact : ∃ (img : KernelImage) (q : VmProc) (r : Ram),
    Space img q.sz q.pgdir r.pool ∧ q.sz = 2 * pgSize ∧
    (¬∃ ret q' r', r.growproc img q (-8192) = .ok (ret, q', r') ∧
      Ram.GrowsExactly q (-8192) r ret q' r') ∧
    ¬∃ ret q' r', r.growproc img q (-12288) = .ok (ret, q', r') ∧
      Ram.GrowsExactly q (-12288) r ret q' r' := by
  obtain ⟨pd, s, hspace, -⟩ := Kernel.exists_space
  refine ⟨Kernel.someImage, ⟨initproc, false, 0, pd, 2 * pgSize⟩, ⟨s, fun _ _ ↦ 0⟩, hspace, rfl,
    ?_, ?_⟩
  · exact Ram.not_growsExactly_of_neg hspace (show 0 < 2 * pgSize by decide)
      (show ((2 * pgSize : ℕ) : ℤ) + (-8192 : BitVec 32).toInt ≤ 0 by decide)
  · exact Ram.not_growsExactly_of_neg hspace (show 0 < 2 * pgSize by decide)
      (show ((2 * pgSize : ℕ) : ℤ) + (-12288 : BitVec 32).toInt ≤ 0 by decide)

end OperatingSystems
