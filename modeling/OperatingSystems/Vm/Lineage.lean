import OperatingSystems.Vm.Conserve

/-!
# A program and its descendants

A process that has just executed a program is laid out, and stays so as long as its calls of `sbrk`
succeed; its children are copies and are laid out as well, and so on. `lineage` is the kernel
together with the set of these processes: the one that called `exec`, and every process that one of
them forks. The others do what they like, apart from `shm_alloc`, which may clear what is not
theirs.

A call of `sbrk` that returns -1 may take a process out of its layout: shrinking to 0 unmaps
everything, and then the size is not stored because it looks like a failure. This is why the calls
have to succeed.
-/

namespace OperatingSystems

open Function

variable {file : ExecFile} {i : Fin nproc}

namespace Kernel

variable {img : KernelImage} {k k' : Kernel} {p : Fin nproc} {q : VmProc} {s s' : Pool}
  {pd : PageDir} {sz : ℕ}

/-! ## What the calls return -/

def execOk (img : KernelImage) (file : ExecFile) (s : Pool) : Bool :=
  file.elf && (execSpace img file s).toOption.any fun r ↦ r.1.isSome

def growprocOk (img : KernelImage) (q : VmProc) (n : BitVec 32) (s : Pool) : Bool :=
  let newsz := (q.sz + n.toNat) % 2 ^ 32
  if 0 < n.toInt then
    (q.pgdir.allocuvm img q.sz newsz s).toOption.any fun r ↦ decide (r.1 ≠ 0)
  else if n.toInt < 0 then
    (q.pgdir.deallocuvm img.kend q.sz newsz s).toOption.any fun r ↦ decide (r.1 ≠ 0)
  else true

/-! ## Which process a call changes -/

theorem laid_of_execOk (hl : Ledger img.kend k.pages) (hok : execOk img file k.pool = true)
    (h : k.exec img p q file = .ok k') :
    ∃ q', k'.proc = update k.proc p (some q') ∧ q'.zombie = q.zombie ∧
      q'.pgdir.Laid q'.sz := by
  rw [execOk, Bool.and_eq_true] at hok
  obtain ⟨helf, hr⟩ := hok
  rw [exec, if_neg (by rw [helf]; decide)] at h
  obtain ⟨⟨r, s₁⟩, hspace, h⟩ := bind_eq_ok_iff.mp h
  rw [hspace] at hr
  obtain ⟨x, rfl⟩ := Option.isSome_iff_exists.mp hr
  obtain ⟨s₂, -, h⟩ := bind_eq_ok_iff.mp h
  cases h
  have hlaid := (((execSpace_outcome img file _).of_ok hspace).2 x rfl).2.2
  exact ⟨_, rfl, rfl, (hlaid (hl.mono k.free_le_pages)).laid⟩

theorem laid_of_growprocOk {n : BitVec 32} (h : Space img q.sz q.pgdir k.pool)
    (hq : k.proc p = some q) (hok : growprocOk img q n k.pool = true)
    (hg : k.growproc img p q n = .ok k') : ∃ q', k'.proc = update k.proc p (some q') ∧
      q'.zombie = q.zombie ∧ q'.pgdir.Laid q'.sz := by
  rw [growproc] at hg
  rw [growprocOk] at hok
  split at hg
  · next hpos =>
    rw [if_pos hpos] at hok
    obtain ⟨size, pd, s, halloc, hspace⟩ := h.allocuvm ((q.sz + n.toNat) % 2 ^ 32)
    rw [halloc] at hok hg
    have hne : size ≠ 0 := of_decide_eq_true hok
    replace hg : (if size = 0 then _ else _) = _ := hg
    rw [if_neg hne] at hg
    cases hg
    rcases hspace with ⟨h0, -⟩ | ⟨-, hspace⟩
    · exact absurd h0 hne
    · exact ⟨_, rfl, rfl, hspace.laid⟩
  · next hpos =>
    rw [if_neg hpos] at hok
    split at hg
    · next hneg =>
      rw [if_pos hneg] at hok
      obtain ⟨size, pd, s, hdealloc, hspace⟩ := h.deallocuvm ((q.sz + n.toNat) % 2 ^ 32)
      rw [hdealloc] at hok hg
      have hne : size ≠ 0 := of_decide_eq_true hok
      replace hg : (if size = 0 then _ else _) = _ := hg
      rw [if_neg hne] at hg
      cases hg
      exact ⟨_, rfl, rfl, hspace.laid⟩
    · cases hg
      refine ⟨q, ?_, rfl, h.laid⟩
      rw [← hq, update_eq_self]

/-- The memory of a process that can make calls. -/
def Holds (k : Kernel) (i : Fin nproc) (pd : PageDir) (sz : ℕ) : Prop :=
  ∃ q, k.running i = some q ∧ q.pgdir = pd ∧ q.sz = sz

theorem running_of_proc (hq : k.proc p = some q) (hz : q.zombie = false) :
    k.running p = some q := by
  rw [running, hq, Option.filter_some, if_pos (by rw [hz]; rfl)]

theorem zombie_of_running (h : k.running p = some q) : q.zombie = false := by
  have hz := (Option.filter_eq_some_iff.mp h).2
  rwa [Bool.not_eq_true'] at hz

theorem Holds.of_proc (h : k.Holds i pd sz) (heq : k'.proc i = k.proc i) : k'.Holds i pd sz := by
  obtain ⟨q, hq, hpd, hsz⟩ := h
  exact ⟨q, running_of_proc (heq.trans (running_eq_some hq)) (zombie_of_running hq), hpd, hsz⟩

theorem Holds.call {c : VmCall} (h : k.Holds i pd sz) (hne : i ≠ p) (he : Effect img k p q c k') :
    k'.Holds i pd sz := by
  obtain ⟨q₀, hq₀, hpd, hsz⟩ := id h
  have hproc := running_eq_some hq₀
  have hz := zombie_of_running hq₀
  have hput : ∀ {j r s}, i ≠ j → (k.put j r s).Holds i pd sz :=
    fun hj ↦ h.of_proc (update_of_ne hj _ _)
  cases he with
  | pool => exact h
  | space => exact hput hne
  | child hnone =>
    refine hput ?_
    rintro rfl
    rw [hproc] at hnone
    cases hnone
  | pipes => exact h
  | exit =>
    refine ⟨_, running_of_proc (Option.map_eq_some_iff.mpr ⟨q₀, hproc, rfl⟩) ?_, hpd, hsz⟩
    rw [← hz]
    exact if_neg hne
  | reap hc hzombie =>
    refine hput ?_
    rintro rfl
    rw [hproc] at hc
    cases hc
    rw [hz] at hzombie
    cases hzombie

/-! ## The machine -/

end Kernel

/-- The kernel, and the processes that descend from the one that executed the program. -/
structure Lineage where
  kernel : Kernel
  member : Fin nproc → Bool

def lineage (img : KernelImage) : Machine Lineage KernelAct where
  init _ := True
  step l act := (l.kernel.step img act).map fun k ↦
    { kernel := k
      member := fun i ↦ l.member i ||
        (l.member act.p && (l.kernel.proc i).isNone && (k.proc i).isSome) }

/-- The members call `fork`, and `sbrk` with success. -/
def Lineage.Succeeds (img : KernelImage) (l : Lineage) (act : KernelAct) : Prop :=
  Kernel.Ordinary act.call ∧ (l.member act.p = true → act.call = .fork ∨
    ∃ n q, act.call = .sbrk n ∧ l.kernel.running act.p = some q ∧
      Kernel.growprocOk img q n { l.kernel.pool with deny := act.deny } = true)

namespace Lineage

open Kernel

variable {img : KernelImage} {l l' : Lineage} {q : VmProc} {k : Kernel}

structure Inv (img : KernelImage) (l : Lineage) : Prop where
  kernel : l.kernel.Inv img
  laid : ∀ i, l.member i = true → ∃ pd sz, l.kernel.Holds i pd sz ∧ pd.Laid sz

theorem Inv.ledger (h : l.Inv img) : Ledger img.kend l.kernel.pages :=
  ⟨h.kernel.nodup, h.kernel.isPage⟩

theorem Inv.space (h : l.Inv img) (hi : l.member i = true) (hq : l.kernel.running i = some q)
    (deny : List Bool) : Space img q.sz q.pgdir { l.kernel.pool with deny := deny } := by
  obtain ⟨pd, sz, ⟨q', hq', rfl, rfl⟩, hlaid⟩ := h.laid i hi
  rw [hq] at hq'
  cases hq'
  have hproc := running_eq_some hq
  exact ⟨h.ledger.mono (account_le_pages hproc), hlaid, (h.kernel.guarded i q hproc).2⟩

theorem Inv.step {act : KernelAct} (h : l.Inv img) (hact : l.Succeeds img act)
    (hs : (lineage img).step l act = some l') : l'.Inv img := by
  obtain ⟨k', hk', rfl⟩ := Option.map_eq_some_iff.mp hs
  obtain ⟨hord, hmember⟩ := hact
  obtain ⟨q, hq, hcall⟩ := call_of_step hk'
  have hproc := running_eq_some hq
  have he := effect_call (k := { l.kernel with pool := { l.kernel.pool with deny := act.deny } })
    h.kernel.guarded hproc hord hcall
  -- the caller, if it is a member, and its child
  have hself : l.member act.p = true → (∃ pd sz, k'.Holds act.p pd sz ∧ pd.Laid sz) ∧
      ∀ i, l.kernel.proc i = none → (k'.proc i).isSome → ∃ pd sz, k'.Holds i pd sz ∧
        pd.Laid sz := by
    intro hp
    have hspace := h.space hp hq act.deny
    have hheld : ∀ {q'}, k'.proc = update l.kernel.proc act.p (some q') →
        q'.zombie = q.zombie → q'.pgdir.Laid q'.sz →
        (∃ pd sz, k'.Holds act.p pd sz ∧ pd.Laid sz) ∧
        ∀ i, l.kernel.proc i = none → (k'.proc i).isSome →
          ∃ pd sz, k'.Holds i pd sz ∧ pd.Laid sz := by
      intro q' heq hz hlaid
      refine ⟨⟨_, _, ⟨q', running_of_proc ?_ (hz.trans (zombie_of_running hq)), rfl, rfl⟩, hlaid⟩,
        fun i hnone hsome ↦ ?_⟩
      · rw [heq, update_self]
      · have hi : i ≠ act.p := by
          rintro rfl
          rw [hproc] at hnone
          cases hnone
        rw [heq, update_of_ne hi, hnone] at hsome
        cases hsome
    rcases hmember hp with hfork | ⟨n, q', hsbrk, hq', hok⟩
    · rw [hfork] at he
      cases he with
      | pool =>
        refine hheld ?_ rfl hspace.laid
        rw [← hproc]
        exact (update_eq_self _ _).symm
      | space hne => exact absurd rfl hne
      | pipes hne => exact absurd rfl hne
      | @child c kstack d s s' hnone hfree hcopy =>
        have hl : Ledger img.kend s.free := by
          refine h.ledger.mono (LE.le.trans ?_ l.kernel.free_le_pages)
          rw [show (l.kernel.pool.free : Multiset (BitVec 32)) = _ from hfree]
          exact Multiset.le_add_left _ _
        have hlaid := PageDir.laid_copyuvm hl (h.kernel.guarded _ q hproc).2 hcopy
        have hc : act.p ≠ c := by
          rintro rfl
          rw [show l.kernel.proc act.p = none from hnone] at hproc
          cases hproc
        refine ⟨⟨_, _, ⟨q, running_of_proc ?_ (zombie_of_running hq), rfl, rfl⟩, hspace.laid⟩,
          fun i hi hsome ↦ ?_⟩
        · exact (update_of_ne hc _ _).trans hproc
        · by_cases hic : i = c
          · rw [hic]
            exact ⟨_, _, ⟨_, running_of_proc (update_self _ _ _) rfl, rfl, rfl⟩, hlaid⟩
          · change (update l.kernel.proc c _ i).isSome at hsome
            rw [update_of_ne hic, hi] at hsome
            cases hsome
    · rw [hq] at hq'
      cases hq'
      rw [hsbrk] at hcall
      obtain ⟨q', heq, hz, hlaid⟩ := laid_of_growprocOk
        (k := { l.kernel with pool := { l.kernel.pool with deny := act.deny } }) hspace hproc hok
        hcall
      exact hheld heq hz hlaid
  refine ⟨h.kernel.step hk', fun i hi ↦ ?_⟩
  rcases Bool.or_eq_true_iff.mp hi with hi | hi
  · by_cases hip : i = act.p
    · rw [hip] at hi ⊢
      exact (hself hi).1
    · obtain ⟨pd, sz, hholds, hlaid⟩ := h.laid i hi
      have hholds : ({ l.kernel with pool := { l.kernel.pool with deny := act.deny } } :
          Kernel).Holds i pd sz := hholds
      exact ⟨pd, sz, hholds.call hip he, hlaid⟩
  · rw [Bool.and_eq_true, Bool.and_eq_true] at hi
    exact (hself hi.1.1).2 i (Option.isNone_iff_eq_none.mp hi.1.2) hi.2

/-- **A page backs one virtual page only.** -/
theorem eq_of_pa_eq (h : k.Inv img) {j : Fin nproc} {r : VmProc} {n m : ℕ} {e e' : Pte}
    (hq : k.proc i = some q) (hn : n < userPages) (he : q.pgdir.pte n = some e)
    (hr : k.proc j = some r) (hm : m < userPages) (he' : r.pgdir.pte m = some e')
    (hpa : e'.pa = e.pa) : j = i ∧ m = n := by
  have hnodup : (∑ p, procPages (k.proc p)).Nodup :=
    Multiset.nodup_of_le ((Multiset.le_add_left _ _).trans (Multiset.le_add_right _ _)) h.nodup
  have hat : ∀ {i q n e}, k.proc i = some q → n < userPages → q.pgdir.pte n = some e →
      ((k.proc i).bind fun q ↦ q.pageAt (.user n)) = some (p2v e.pa) := by
    intro i q n e hq hn he
    rw [hq, Option.bind_some, VmProc.pageAt, if_pos hn, he]
    rfl
  have heq := k.placed_procs.unique hnodup (x := (j, .user m)) (y := (i, .user n))
    ((hat hr hm he').trans (by rw [hpa])) (hat hq hn he)
  obtain ⟨hji, hmn⟩ := Prod.mk.inj heq
  exact ⟨hji, ProcPlace.user.inj hmn⟩

theorem inv_of_exec {k₁ : Kernel} {p : Fin nproc} (hI : k.Inv img) (hq : k.running p = some q)
    (hok : execOk img file k.pool = true) (h : k.exec img p q file = .ok k₁) :
    Inv img ⟨k₁, fun i ↦ decide (i = p)⟩ := by
  have hl : Ledger img.kend k.pages := ⟨hI.nodup, hI.isPage⟩
  have hkeeps := (effect_exec h).keeps hI.guarded (running_eq_some hq)
  obtain ⟨q', heq, hz, hlaid⟩ := laid_of_execOk hl hok h
  refine ⟨⟨hkeeps.pages ▸ hI.nodup, fun v hv ↦ hI.isPage v (hkeeps.pages ▸ hv), hkeeps.guarded⟩,
    fun i hi ↦ ?_⟩
  obtain rfl : i = p := of_decide_eq_true hi
  refine ⟨_, _, ⟨q', running_of_proc ?_ (hz.trans (zombie_of_running hq)), rfl, rfl⟩, hlaid⟩
  rw [heq, update_self]

end Lineage

open Kernel in
/-- **The layout of a program and its descendants.** `exec` does not panic, whatever is in the file.
Where it succeeds, and as long as the calls of the process and its descendants are `fork` and `sbrk`
with success, each of them has exactly the pages below its size, and each of these pages is behind
nothing else; and their next calls do not panic either. -/
theorem layout_of_exec {img : KernelImage} {k : Kernel} {p : Fin nproc} {q : VmProc}
    (file : ExecFile) (deny : List Bool) (hk : (kernel img).Reachable k)
    (hq : k.running p = some q) :
    (∃ k₁, call img { k with pool := { k.pool with deny := deny } } p q (.exec file) = .ok k₁) ∧
    ∀ k₁, call img { k with pool := { k.pool with deny := deny } } p q (.exec file) = .ok k₁ →
      execOk img file { k.pool with deny := deny } = true →
      ∀ l, ((lineage img).startAt ⟨k₁, fun i ↦ decide (i = p)⟩).ReachableUnder
          (Lineage.Succeeds img) l →
        ∀ i, l.member i = true → ∃ q', l.kernel.running i = some q' ∧
          (∀ n, n < userPages → ((q'.pgdir.pte n).isSome ↔ n * pgSize < pgRoundUp q'.sz)) ∧
          (∀ n e, n < userPages → q'.pgdir.pte n = some e →
            ∀ j r m e', l.kernel.proc j = some r → m < userPages → r.pgdir.pte m = some e' →
              e'.pa = e.pa → j = i ∧ m = n) ∧
          ∀ deny', (∃ k', call img { l.kernel with pool := { l.kernel.pool with deny := deny' } } i
              q' .fork = .ok k') ∧
            ∀ x, ∃ k', call img { l.kernel with pool := { l.kernel.pool with deny := deny' } } i
              q' (.sbrk x) = .ok k' := by
  have hI : ({ k with pool := { k.pool with deny := deny } } : Kernel).Inv img :=
    have hI := inv_of_reachable hk
    ⟨hI.nodup, hI.isPage, hI.guarded⟩
  refine ⟨exists_exec ⟨hI.nodup, hI.isPage⟩ (running_eq_some hq) file,
    fun k₁ hexec hok l hl i hi ↦ ?_⟩
  have hinv : l.Inv img := by
    refine hl.invariant (I := Lineage.Inv img) ?_ ?_
    · rintro _ rfl
      exact Lineage.inv_of_exec hI hq hok hexec
    · intro l act l' _ h hact hs
      exact h.step hact hs
  obtain ⟨pd, sz, ⟨q', hq', rfl, rfl⟩, hlaid⟩ := hinv.laid i hi
  have hproc := running_eq_some hq'
  refine ⟨q', hq', hlaid.round, fun n e hn he j r m e' hr hm he' hpa ↦ ?_, fun deny' ↦ ⟨?_, ?_⟩⟩
  · exact Lineage.eq_of_pa_eq hinv.kernel hproc hn he hr hm he' hpa
  · cases hfork : call img { l.kernel with pool := { l.kernel.pool with deny := deny' } } i q'
        .fork with
    | ok k' => exact ⟨k', rfl⟩
    | error e =>
      have hsz := (hinv.kernel.guarded i q' hproc).2
      obtain ⟨-, m, hm, hnone⟩ := fork_error
        (k := { l.kernel with pool := { l.kernel.pool with deny := deny' } }) hinv.ledger
        hinv.kernel.guarded hproc hfork
      have hsome := (hlaid m (PageDir.lt_userPages hm hsz)).mpr hm
      rw [hnone] at hsome
      cases hsome
  · intro x
    cases hsbrk : call img { l.kernel with pool := { l.kernel.pool with deny := deny' } } i q'
        (.sbrk x) with
    | ok k' => exact ⟨k', rfl⟩
    | error e =>
      obtain ⟨-, m, hm, hle, hsome⟩ := growproc_error
        (k := { l.kernel with pool := { l.kernel.pool with deny := deny' } }) hinv.ledger
        hinv.kernel.guarded hproc hsbrk
      exact absurd ((hlaid m hm).mp hsome) (not_lt.mpr hle)

/-! ## A program that is executed -/

namespace PageDir

variable {pd : PageDir} {s : Pool} {n j spare : ℕ}

theorem Ready.allocLoop (img : KernelImage) (oldsz : ℕ) (h : pd.Ready s (spare + j))
    (hn : n + j ≤ userPages) (hpte : ∀ m, n ≤ m → m < n + j → pd.pte m = none) : ∃ pd' s',
      PageDir.allocLoop img oldsz ((n + j) * pgSize) pd n s = .ok ((n + j) * pgSize, pd', s') ∧
      pd'.Ready s' spare ∧ ∀ m, n + j ≤ m → pd'.pte m = pd.pte m := by
  induction j generalizing pd n s with
  | zero =>
    refine ⟨pd, s, ?_, h, fun _ _ ↦ rfl⟩
    rw [Nat.add_zero, PageDir.allocLoop, if_neg (Nat.lt_irrefl _)]
  | succ j ih =>
    obtain ⟨mem, s₁, hmem, h₁⟩ := h.kalloc
    obtain ⟨pd₁, s₂, hmap, h₂, hrest⟩ := h₁.mapLoop (v2p mem) ⟨true, true⟩ (n := n) (k := 1)
      (lt_vpages (by omega)) fun m hm hm' ↦ hpte m hm (by omega)
    rw [← mappages_one (lt_vpages (by omega))] at hmap
    obtain ⟨pd', s', hloop, hready, hrest'⟩ := ih (n := n + 1) h₂ (by omega) fun m hm hm' ↦ by
      rw [hrest m (.inr hm)]
      exact hpte m (by omega) (by omega)
    rw [show n + 1 + j = n + (j + 1) by omega] at hloop hrest'
    refine ⟨pd', s', ?_, hready, fun m hm ↦ ?_⟩
    · rw [PageDir.allocLoop, if_pos (by rw [pgSize]; omega)]
      simp only [hmem]
      exact bind_eq_ok_iff.mpr ⟨_, hmap, hloop⟩
    · rw [hrest' m hm, hrest m (.inr (by omega))]

end PageDir

namespace Kernel

def emptyFile : ExecFile := ⟨true, [], true⟩

variable {img : KernelImage} {s : Pool}

theorem execSpace_emptyFile (hdeny : s.deny = []) (hl : Ledger img.kend s.free)
    (hfree : npdEntries + 2 < s.free.length) :
    ∃ pd s', execSpace img emptyFile s = .ok (some (2 * pgSize, pd), s') := by
  obtain ⟨pd, s₁, hsetup, hready, hempty⟩ := PageDir.exists_setupkvm img hdeny hfree
  have htwo : 0 + 2 ≤ userPages := by
    rw [userPages]
    decide
  obtain ⟨pd₁, s₂, hloop, -⟩ := PageDir.Ready.allocLoop img 0 (j := 2) (n := 0) hready htwo
    fun m _ hm ↦ hempty m (by omega)
  have halloc : pd.allocuvm img 0 (2 * pgSize) s₁ = .ok (2 * pgSize, pd₁, s₂) := by
    rw [Nat.zero_add] at hloop
    rw [PageDir.allocuvm, if_neg (by decide), if_neg (by decide)]
    exact hloop
  have hacc : pd.account s₁ = s.free := PageDir.setupkvm_spec hsetup
  have hspace : Space img 0 pd s₁ := ⟨hacc ▸ hl, PageDir.laid_zero hempty, Nat.zero_le _⟩
  obtain ⟨size, pd₂, s₃, halloc', hspace⟩ := hspace.allocuvm (2 * pgSize)
  rw [halloc] at halloc'
  cases halloc'
  obtain ⟨pd₃, hclear, -⟩ := (hspace.resolve_left fun h ↦ absurd h.1 (by decide)).2.clearpteu
    (n := (2 * pgSize - 2 * pgSize) / pgSize) (by decide)
  exact ⟨pd₃, s₂, bind_eq_ok_iff.mpr ⟨_, hsetup, bind_eq_ok_iff.mpr ⟨(some 0, pd, s₁), rfl,
    bind_eq_ok_iff.mpr ⟨(some (2 * pgSize), pd₃, s₂), bind_eq_ok_iff.mpr ⟨_, halloc,
      bind_eq_ok_iff.mpr ⟨_, hclear, rfl⟩⟩, rfl⟩⟩⟩⟩

theorem execOk_emptyFile (hdeny : s.deny = []) (hl : Ledger img.kend s.free)
    (hfree : npdEntries + 2 < s.free.length) : execOk img emptyFile s = true := by
  obtain ⟨pd, s', hexec⟩ := execSpace_emptyFile hdeny hl hfree
  rw [execOk, hexec]
  rfl

theorem exists_space : ∃ pd s, Space someImage (2 * pgSize) pd s ∧
    execSpace someImage emptyFile ⟨somePages, []⟩ = .ok (some (2 * pgSize, pd), s) := by
  obtain ⟨pd, s, hexec⟩ := execSpace_emptyFile (s := ⟨somePages, []⟩) rfl ledger_somePages (by
    rw [length_somePages]
    omega)
  exact ⟨pd, s, (((execSpace_outcome _ emptyFile _).of_ok hexec).2 _ rfl).2.2 ledger_somePages,
    hexec⟩

end Kernel

open Kernel in
/-- The first process executes a program and calls `fork`, and is laid out afterwards. -/
theorem layout_of_exec_init : ∃ (img : KernelImage) (l₁ l : Lineage) (q' : VmProc),
    (lineage img).step l₁ ⟨initproc, .fork, []⟩ = some l ∧
      l.kernel.running initproc = some q' ∧
      (∀ n, n < userPages → ((q'.pgdir.pte n).isSome ↔ n * pgSize < pgRoundUp q'.sz)) ∧
      ∀ x, ∃ k', call img { l.kernel with pool := { l.kernel.pool with deny := [] } } initproc
        q' (.sbrk x) = .ok k' := by
  obtain ⟨k, q, a, l, hinit, hq, hpool, hle⟩ := exists_userinit_somePages
  have hk : (kernel someImage).Reachable k := .init (init_of_userinit hinit)
  have hI := inv_of_reachable hk
  have hfree : k.pool.free = a :: l := congrArg Pool.free hpool
  have hok : execOk someImage emptyFile { k.pool with deny := [] } = true := by
    refine execOk_emptyFile rfl ((Ledger.mono ⟨hI.nodup, hI.isPage⟩) k.free_le_pages) ?_
    change _ < k.pool.free.length
    rw [hfree, List.length_cons]
    omega
  obtain ⟨⟨k₁, hexec⟩, hall⟩ := layout_of_exec emptyFile [] hk hq
  have hself : decide (initproc = initproc) = true := decide_eq_true rfl
  obtain ⟨q₁, hq₁, -, -, hnext⟩ := hall k₁ hexec hok _ (.init rfl) initproc hself
  obtain ⟨k₂, hfork⟩ := (hnext []).1
  have hrun : k₁.step someImage ⟨initproc, .fork, []⟩ = some k₂ := by
    rw [Kernel.step]
    simp only [hq₁, hfork]
    rfl
  have hstep : (lineage someImage).step ⟨k₁, fun i ↦ decide (i = initproc)⟩
      ⟨initproc, .fork, []⟩ = some _ := Option.map_eq_some_iff.mpr ⟨k₂, hrun, rfl⟩
  obtain ⟨q', hq', hlaid, -, hlast⟩ := hall k₁ hexec hok _
    (.step (.init rfl) ⟨fun _ ↦ by rintro ⟨⟩, fun _ ↦ .inl rfl⟩ hstep) initproc rfl
  exact ⟨someImage, _, _, q', hstep, hq', hlaid, (hlast []).2⟩

end OperatingSystems
