import Mathlib.Algebra.Order.BigOperators.Group.Finset
import Mathlib.Tactic.Abel
import OperatingSystems.Vm.Layout
import OperatingSystems.Vm.Process

/-!
# Who owns the pages, and `shm_alloc`

`Kernel.pages` counts every page the kernel knows of: the free ones, the kernel stacks, the pages of
the address spaces and those of the pipes. Every call moves pages between these places and loses
none, with the exception of `shm_alloc`, which takes a page off the free list and puts it nowhere.
So each page is in one place only, and a page that `shm_alloc` has handed out never comes back:
nothing that is freed later, by whatever call, is that page.

Nor can the caller use it. The address returned lies above `KERNBASE`, and no directory maps
anything for the user there.
-/

namespace OperatingSystems

open Function

def procPages (q : Option VmProc) : Multiset (BitVec 32) :=
  q.elim 0 fun q ↦ {q.kstack} + q.pgdir.pages

def pipePages (bs : List PipeBuf) : Multiset (BitVec 32) := (bs.map PipeBuf.page : List (BitVec 32))

def PipeBuf.opened (b : PipeBuf) : Bool := b.readopen || b.writeopen

variable {c : VmCall}

namespace Kernel

def pages (k : Kernel) : Multiset (BitVec 32) :=
  k.pool.free + ∑ p, procPages (k.proc p) + pipePages k.pipes

/-- A process has an address space below `KERNBASE` and no access above. -/
def SpaceOk (q : VmProc) : Prop := q.pgdir.KernelOnly ∧ q.sz ≤ kernBase

/-- Every process is confined to the user half. -/
def Guarded (k : Kernel) : Prop := ∀ p q, k.proc p = some q → SpaceOk q

/-- A call that moves pages around and leaves every process confined. -/
structure Keeps (k k' : Kernel) : Prop where
  pages : k'.pages = k.pages
  guarded : k'.Guarded

/-! ## Every call but one moves pages around -/

def Opened (k : Kernel) : Prop := ∀ b ∈ k.pipes, b.opened = true

/-- What a call of process `p` amounts to, if it is not `shm_alloc`. -/
inductive Effect (img : KernelImage) (k : Kernel) (p : Fin nproc) (q : VmProc) :
    VmCall → Kernel → Prop
  /-- What was taken is given back. -/
  | pool {c : VmCall} {s : Pool} (hfree : (s.free : Multiset (BitVec 32)) = k.pool.free) :
      Effect img k p q c { k with pool := s }
  /-- The address space of the process is changed or replaced. -/
  | space {c : VmCall} {pd : PageDir} {sz : ℕ} {s : Pool} (hne : c ≠ .fork)
      (hacc : pd.account s = q.pgdir.account k.pool) (hpd : pd.KernelOnly) (hsz : sz ≤ kernBase) :
      Effect img k p q c (k.put p (some { q with pgdir := pd, sz := sz }) s)
  | child {c : Fin nproc} {kstack : BitVec 32} {d : PageDir} {s s' : Pool} (hnone : k.proc c = none)
      (hfree : (k.pool.free : Multiset (BitVec 32)) = {kstack} + s.free)
      (hcopy : q.pgdir.copyuvm img q.sz s = .ok (some d, s')) :
      Effect img k p q .fork (k.put c (some ⟨p, false, kstack, d, q.sz⟩) s')
  | pipes {c : VmCall} {bs : List PipeBuf} {s : Pool} (hne : c ≠ .fork)
      (hacc : (s.free : Multiset (BitVec 32)) + pipePages bs = k.pool.free + pipePages k.pipes)
      (hopen : k.Opened → ∀ b ∈ bs, b.opened = true) :
      Effect img k p q c { k with pool := s, pipes := bs }
  | exit : Effect img k p q .exit (k.exit p)
  | reap {c : Fin nproc} {z : VmProc} {s : Pool} (hproc : k.proc c = some z)
      (hzombie : z.zombie = true)
      (hfree : (s.free : Multiset (BitVec 32)) = k.pool.free + procPages (some z)) :
      Effect img k p q .wait (k.put c none s)

section Conserve

variable {img : KernelImage} {k k' : Kernel} {p : Fin nproc} {q : VmProc} {s : Pool}
  {r : Option VmProc} {total : Multiset (BitVec 32)} {sz : ℕ} {pd : PageDir}

theorem pages_put
    (h : (s.free : Multiset (BitVec 32)) + procPages r = k.pool.free + procPages (k.proc p)) :
    (k.put p r s).pages = k.pages := by
  have hsum := sum_update_add k.proc p r procPages
  have hpages : (k.put p r s).pages + procPages (k.proc p) = k.pages + procPages (k.proc p) := by
    calc (k.put p r s).pages + procPages (k.proc p)
        = s.free + (∑ i, procPages (update k.proc p r i) + procPages (k.proc p))
            + pipePages k.pipes := by
          rw [pages]
          change s.free + ∑ i, procPages (update k.proc p r i) + pipePages k.pipes + _ = _
          abel
      _ = (s.free + procPages r) + ∑ i, procPages (k.proc i) + pipePages k.pipes := by
          rw [hsum]
          abel
      _ = k.pages + procPages (k.proc p) := by
          rw [h, pages]
          abel
  exact add_right_cancel hpages

theorem Keeps.of_put (hg : k.Guarded) (hr : ∀ q, r = some q → SpaceOk q)
    (h : (s.free : Multiset (BitVec 32)) + procPages r = k.pool.free + procPages (k.proc p)) :
    k.Keeps (k.put p r s) := by
  refine ⟨pages_put h, fun i q' hq ↦ ?_⟩
  by_cases hi : i = p
  · rw [hi, show (k.put p r s).proc p = r from update_self ..] at hq
    exact hr q' hq
  · rw [show (k.put p r s).proc i = k.proc i from update_of_ne hi ..] at hq
    exact hg i q' hq

theorem proc_eq_none_of_unused {c : Fin nproc} (h : k.unused = some c) : k.proc c = none :=
  Option.isNone_iff_eq_none.mp (List.find?_some (p := fun i ↦ (k.proc i).isNone) h)

theorem running_eq_some (h : k.running p = some q) : k.proc p = some q :=
  (Option.filter_eq_some_iff.mp h).1

theorem effect_fork (hsz : q.sz ≤ kernBase) (h : k.fork img p q = .ok k') :
    Effect img k p q .fork k' := by
  rw [fork] at h
  split at h
  · cases h
    exact .pool rfl
  · next c hc =>
    rcases k.pool.kalloc_cases with ⟨s, hs, hfree⟩ | ⟨kstack, s, hs, hfree⟩
    · simp only [hs] at h
      cases h
      exact .pool (by rw [hfree])
    · simp only [hs] at h
      have hcons : (k.pool.free : Multiset (BitVec 32)) = {kstack} + s.free := by
        rw [hfree, ← Multiset.cons_coe, Multiset.singleton_add]
      obtain ⟨⟨r, s₁⟩, hcopy, h⟩ := bind_eq_ok_iff.mp h
      cases r with
      | none =>
        obtain ⟨s₂, hkfree, h⟩ := bind_eq_ok_iff.mp h
        cases h
        refine .pool ?_
        rw [Pool.kfree_eq_ok hkfree, ← Multiset.cons_coe, ← Multiset.singleton_add, hcons,
          ← PageDir.copyuvm_spec hsz hcopy]
        exact congrArg _ (add_zero _).symm
      | some d =>
        cases h
        exact .child (proc_eq_none_of_unused hc) hcons hcopy

/-- What holds of the directory that `exec` builds, and of the allocator, when it is done. -/
structure Built (img : KernelImage) (total : Multiset (BitVec 32)) (sz : ℕ) (pd : PageDir)
    (s : Pool) : Prop where
  account : pd.account s = total
  kernelOnly : pd.KernelOnly
  size : sz ≤ kernBase

theorem Built.clearpteu {pd' : PageDir} {s : Pool} (h : Built img total sz pd s)
    (hc : pd.clearpteu ((sz - 2 * pgSize) / pgSize) = .ok pd') : Built img total sz pd' s := by
  refine ⟨?_, h.kernelOnly.clearpteu hc, h.size⟩
  have hn : (sz - 2 * pgSize) / pgSize < userPages := by
    have := h.size
    rw [userPages, pgSize, kernBase] at *
    omega
  rw [PageDir.account, PageDir.clearpteu_spec hn hc]
  exact h.account

theorem Built.round {s : Pool} (h : Built img total sz pd s) :
    Built img total ((sz + pgSize - 1) / pgSize * pgSize) pd s := by
  refine ⟨h.account, h.kernelOnly, ?_⟩
  have := h.size
  rw [pgSize, kernBase] at *
  omega

/-- What a part of `exec` makes of a directory: it is still built, and laid out if it was. -/
structure Went (img : KernelImage) (total : Multiset (BitVec 32)) (sz : ℕ) (pd : PageDir) (s : Pool)
    (r : Option ℕ × PageDir × Pool) : Prop where
  built : ∃ sz', Built img total sz' r.2.1 r.2.2 ∧ (r.1 = none ∨ r.1 = some sz')
  space : Space img sz pd s → ∃ sz', Space img sz' r.2.1 r.2.2 ∧ (r.1 = none ∨ r.1 = some sz')

section Exec

variable {total : Multiset (BitVec 32)} {sz newsz size : ℕ} {pd pd' : PageDir} {s' : Pool}

theorem Went.refl (h : Built img total sz pd s) {r : Option ℕ} (hr : r = none ∨ r = some sz) :
    Went img total sz pd s (r, pd, s) :=
  ⟨⟨sz, h, hr⟩, fun hs ↦ ⟨sz, hs, hr⟩⟩

theorem Went.of_space {r : Option ℕ × PageDir × Pool} (h : Went img total size pd' s' r)
    (hs : Space img sz pd s → Space img size pd' s') : Went img total sz pd s r :=
  ⟨h.built, fun h₀ ↦ h.space (hs h₀)⟩

theorem Built.allocuvm (h : Built img total sz pd s) (newsz : ℕ) :
    Outcome
      (fun r ↦ Built img total r.1 r.2.1 r.2.2 ∧ (r.1 = 0 → Went img total sz pd s (none, r.2)) ∧
        (r.1 ≠ 0 → Space img sz pd s → newsz ≤ r.1 ∧ Space img r.1 r.2.1 r.2.2))
      (fun _ ↦ ¬Space img sz pd s) (pd.allocuvm img sz newsz s) := by
  refine (Outcome.of_exists fun hs ↦ ?_).imp fun r hr ↦ ?_
  · obtain ⟨size, pd', s', hr, -⟩ := hs.allocuvm newsz
    exact ⟨_, hr⟩
  · have h₁ : Built img total r.1 r.2.1 r.2.2 := ⟨(PageDir.allocuvm_spec hr).trans h.account,
      h.kernelOnly.allocuvm hr, PageDir.allocuvm_size h.size hr⟩
    have hspace : Space img sz pd s → r.1 = 0 ∧ Space img sz r.2.1 r.2.2 ∨
        newsz ≤ r.1 ∧ Space img r.1 r.2.1 r.2.2 := fun hs ↦ by
      obtain ⟨size, pd', s', hr', hcase⟩ := hs.allocuvm newsz
      rw [hr] at hr'
      cases hr'
      exact hcase
    refine ⟨h₁, fun _ ↦ ⟨⟨_, h₁, .inl rfl⟩, fun hs ↦ ?_⟩, fun hne hs ↦ ?_⟩
    · exact (hspace hs).elim (fun h ↦ ⟨_, h.2, .inl rfl⟩) fun h ↦ ⟨_, h.2, .inl rfl⟩
    · exact (hspace hs).resolve_left fun h ↦ hne h.1

theorem loadSegments_outcome (h : Built img total sz pd s) (phs : List ProgHdr) :
    Outcome (Went img total sz pd s) (fun _ ↦ ¬Space img sz pd s)
      (loadSegments img sz pd s phs) := by
  induction phs generalizing sz pd s with
  | nil => exact .ok (.refl h (.inr rfl))
  | cons ph phs ih =>
    rw [loadSegments]
    split
    · exact .ok (.refl h (.inl rfl))
    · split
      · exact ih h
      · split
        · exact .ok (.refl h (.inl rfl))
        · next hmemsz =>
          split
          · exact .ok (.refl h (.inl rfl))
          · next hwrap =>
            refine (h.allocuvm _).bind fun r hr ↦ ?_
            obtain ⟨size, pd₁, s₁⟩ := r
            obtain ⟨h₁, hzero, hne⟩ := hr
            dsimp only at h₁ hzero hne ⊢
            split
            · next hsize => exact .ok (hzero hsize)
            · next hsize =>
              have hspace := fun hs ↦ (hne hsize hs).2
              split
              · exact .ok (Went.of_space (.refl h₁ (.inl rfl)) hspace)
              · next haligned =>
                refine (Outcome.of_exists fun hs ↦ ?_).bind fun b _ ↦ ?_
                · refine (hspace hs).loaduvm ph.reads haligned ?_
                  have hle := (hne hsize hs).1
                  rw [BitVec.lt_def, BitVec.toNat_add] at hwrap
                  rw [BitVec.lt_def] at hmemsz
                  rw [BitVec.toNat_add] at hle
                  omega
                · cases b with
                  | false => exact .ok (Went.of_space (.refl h₁ (.inl rfl)) hspace)
                  | true =>
                    refine ((ih h₁).imp fun r hr ↦ ?_).imp_error fun _ hno hs ↦ hno (hspace hs)
                    exact hr.of_space hspace

theorem execStack_outcome (h : Built img total sz pd s) (args : Bool) :
    Outcome (Went img total sz pd s) (fun _ ↦ ¬Space img sz pd s)
      (execStack img args sz pd s) := by
  refine ((h.round.allocuvm _).imp_error fun _ hno hs ↦ hno hs.round).bind fun r hr ↦ ?_
  obtain ⟨size, pd₁, s₁⟩ := r
  obtain ⟨h₁, hzero, hne⟩ := hr
  dsimp only at h₁ hzero hne ⊢
  split
  · next hsize => exact .ok ((hzero hsize).of_space Space.round)
  · next hsize =>
    have hspace : Space img sz pd s → ∃ pd₂,
        pd₁.clearpteu ((size - 2 * pgSize) / pgSize) = .ok pd₂ ∧ Space img size pd₂ s₁ :=
          fun hs ↦ by
      obtain ⟨hle, h₁⟩ := hne hsize hs.round
      refine h₁.clearpteu ?_
      rw [pgSize] at *
      omega
    refine (Outcome.of_exists fun hs ↦ (hspace hs).imp fun _ h ↦ h.1).bind fun pd₂ hclear ↦ .ok ?_
    refine (Went.refl (h₁.clearpteu hclear) ?_).of_space fun hs ↦ ?_
    · cases args with
      | true => exact .inr rfl
      | false => exact .inl rfl
    · obtain ⟨pd₃, hclear', h₂⟩ := hspace hs
      rw [hclear] at hclear'
      cases hclear'
      exact h₂

/-- **What `exec` builds.** `execSpace` moves pages from the allocator into the new directory, or
none at all. It fails only if the pages do not add up, and if they do, the directory is laid out. -/
theorem execSpace_outcome (img : KernelImage) (file : ExecFile) (s : Pool) :
    Outcome (fun r ↦ (r.2.free : Multiset (BitVec 32)) + r.1.elim 0 (fun x ↦ x.2.pages) = s.free ∧
        ∀ x, r.1 = some x → x.2.KernelOnly ∧ x.1 ≤ kernBase ∧
          (Ledger img.kend s.free → Space img x.1 x.2 r.2))
      (fun _ ↦ ¬Ledger img.kend s.free) (execSpace img file s) := by
  refine (Outcome.of_exists fun hl ↦ ?_).bind fun r hsetup ↦ ?_
  · obtain ⟨o, s₁, hsetup, -⟩ := PageDir.exists_setupkvm_of_ledger hl
    exact ⟨_, hsetup⟩
  obtain ⟨o, s₁⟩ := r
  have hacc := PageDir.setupkvm_spec hsetup
  cases o with
  | none => exact .ok ⟨hacc, fun _ h ↦ by cases h⟩
  | some pd₁ =>
    have h₁ : Built img s.free 0 pd₁ s₁ :=
      ⟨hacc, PageDir.kernelOnly_setupkvm hsetup, Nat.zero_le _⟩
    have hspace : Ledger img.kend s.free → Space img 0 pd₁ s₁ := fun hl ↦ by
      obtain ⟨o, s₂, hsetup', hempty⟩ := PageDir.exists_setupkvm_of_ledger hl
      rw [hsetup] at hsetup'
      cases hsetup'
      exact ⟨h₁.account ▸ hl, PageDir.laid_zero (hempty pd₁ rfl), Nat.zero_le _⟩
    -- what was built is given back
    have hundo : ∀ {sz} pd s₂, Built img s.free sz pd s₂ →
        Outcome (fun s₃ ↦ (s₃.free : Multiset (BitVec 32)) + 0 = s.free)
          (fun _ ↦ ¬Ledger img.kend s.free) (pd.freevm img.kend s₂) := fun pd s₂ h ↦ by
      rw [← h.account]
      exact (PageDir.freevm_outcome pd s₂).imp fun s₃ hs₃ ↦ (add_zero _).trans hs₃
    refine ((loadSegments_outcome h₁ _).imp_error fun _ hno hl ↦ hno (hspace hl)).bind fun r hr ↦ ?_
    obtain ⟨o, pd₂, s₂⟩ := r
    obtain ⟨⟨sz₂, h₂, hr⟩, hspace₂⟩ := hr
    cases o with
    | none => exact (hundo pd₂ s₂ h₂).bind fun s₃ hs₃ ↦ .ok ⟨hs₃, fun _ h ↦ by cases h⟩
    | some sz =>
      obtain rfl : sz = sz₂ := Option.some.inj (hr.resolve_left (Option.some_ne_none _))
      have hspace₂ : Ledger img.kend s.free → Space img sz pd₂ s₂ := fun hl ↦ by
        obtain ⟨sz', h, hr⟩ := hspace₂ (hspace hl)
        rwa [Option.some.inj (hr.resolve_left (Option.some_ne_none _))]
      refine ((execStack_outcome h₂ _).imp_error fun _ hno hl ↦ hno (hspace₂ hl)).bind fun r hr ↦ ?_
      obtain ⟨o, pd₃, s₃⟩ := r
      obtain ⟨⟨sz₃, h₃, hr⟩, hspace₃⟩ := hr
      cases o with
      | none => exact (hundo pd₃ s₃ h₃).bind fun s₄ hs₄ ↦ .ok ⟨hs₄, fun _ h ↦ by cases h⟩
      | some sz' =>
        obtain rfl : sz' = sz₃ := Option.some.inj (hr.resolve_left (Option.some_ne_none _))
        refine .ok ⟨?_, fun x hx ↦ ?_⟩
        · rw [Option.elim_some]
          exact h₃.account
        · cases hx
          refine ⟨h₃.kernelOnly, h₃.size, fun hl ↦ ?_⟩
          obtain ⟨sz'', h, hr⟩ := hspace₃ (hspace₂ hl)
          rwa [Option.some.inj (hr.resolve_left (Option.some_ne_none _))]

end Exec

theorem effect_exec {file : ExecFile} (h : k.exec img p q file = .ok k') :
    Effect img k p q (.exec file) k' := by
  rw [exec] at h
  split at h
  · cases h
    exact .pool rfl
  · obtain ⟨⟨r, s₁⟩, hspace, h⟩ := bind_eq_ok_iff.mp h
    obtain ⟨hacc, hok⟩ := (execSpace_outcome img file _).of_ok hspace
    cases r with
    | none =>
      cases h
      exact .pool ((add_zero _).symm.trans hacc)
    | some x =>
      obtain ⟨s₂, hfree, h⟩ := bind_eq_ok_iff.mp h
      cases h
      -- the new address space is paid for, the old one is given back
      refine .space (fun h ↦ by cases h) ?_ (hok x rfl).1 (hok x rfl).2.1
      rw [PageDir.account, PageDir.freevm_spec hfree, PageDir.account, PageDir.account, ← hacc]
      exact add_right_comm ..

theorem free_add_procPages_le (k : Kernel) (p : Fin nproc) :
    k.pool.free + procPages (k.proc p) ≤ k.pages :=
  (add_le_add le_rfl (Finset.single_le_sum (fun _ _ ↦ Multiset.zero_le _)
    (Finset.mem_univ p))).trans (Multiset.le_add_right _ _)

theorem free_le_pages (k : Kernel) : (k.pool.free : Multiset (BitVec 32)) ≤ k.pages :=
  (Multiset.le_add_right _ _).trans (k.free_add_procPages_le initproc)

theorem account_le_pages (hq : k.proc p = some q) : q.pgdir.account k.pool ≤ k.pages := by
  refine le_trans ?_ (k.free_add_procPages_le p)
  rw [hq, PageDir.account]
  change k.pool.free + q.pgdir.pages ≤ k.pool.free + ({q.kstack} + q.pgdir.pages)
  exact add_le_add le_rfl (Multiset.le_add_left _ _)

/-- **`exec` does not fail**, whatever the file says. -/
theorem exists_exec (hl : Ledger img.kend k.pages) (hq : k.proc p = some q) (file : ExecFile) :
    ∃ k', k.exec img p q file = .ok k' := by
  rw [exec]
  split
  · exact ⟨k, rfl⟩
  · have hout := execSpace_outcome img file k.pool
    obtain ⟨⟨r, s₁⟩, hspace⟩ := hout.exists_ok fun _ hno ↦ hno (hl.mono k.free_le_pages)
    cases r with
    | none => exact ⟨{ k with pool := s₁ }, bind_eq_ok_iff.mpr ⟨_, hspace, rfl⟩⟩
    | some x =>
      have hacc := (hout.of_ok hspace).1
      have hl₁ : Ledger img.kend (q.pgdir.account s₁) := by
        refine hl.mono (le_trans ?_ (account_le_pages hq))
        rw [PageDir.account, PageDir.account, ← hacc]
        exact add_le_add (Multiset.le_add_right _ _) le_rfl
      obtain ⟨s₂, hs₂⟩ := PageDir.exists_freevm hl₁
      exact ⟨_, bind_eq_ok_iff.mpr ⟨_, hspace, bind_eq_ok_iff.mpr ⟨s₂, hs₂, rfl⟩⟩⟩

theorem effect_growproc {n : BitVec 32} (hk : q.pgdir.KernelOnly) (hsz : q.sz ≤ kernBase)
    (h : k.growproc img p q n = .ok k') : Effect img k p q (.sbrk n) k' := by
  rw [growproc] at h
  split at h
  · obtain ⟨⟨size, pd, s⟩, halloc, h⟩ := bind_eq_ok_iff.mp h
    have hspace : ∀ sz ≤ kernBase, Effect img k p q (.sbrk n)
        (k.put p (some { q with pgdir := pd, sz := sz }) s) := fun _ ↦
      .space (fun h ↦ by cases h) (PageDir.allocuvm_spec halloc) (hk.allocuvm halloc)
    simp only at h
    split at h <;> cases h
    · exact hspace _ hsz
    · exact hspace _ (PageDir.allocuvm_size hsz halloc)
  · split at h
    · obtain ⟨⟨size, pd, s⟩, hdealloc, h⟩ := bind_eq_ok_iff.mp h
      have hspace : ∀ sz ≤ kernBase, Effect img k p q (.sbrk n)
          (k.put p (some { q with pgdir := pd, sz := sz }) s) := fun _ ↦
        .space (fun h ↦ by cases h) (PageDir.deallocuvm_spec hsz hdealloc).1
          (hk.deallocuvm hsz hdealloc)
      simp only at h
      split at h <;> cases h
      · exact hspace _ hsz
      · exact hspace _ (PageDir.deallocuvm_size hsz hdealloc)
    · cases h
      exact .pool rfl

theorem pipePages_cons (b : PipeBuf) (bs : List PipeBuf) :
    pipePages (b :: bs) = {b.page} + pipePages bs := by
  rw [pipePages, List.map_cons, ← Multiset.cons_coe, ← Multiset.singleton_add]
  rfl

theorem effect_pipealloc : Effect img k p q .pipe k.pipealloc := by
  rw [pipealloc]
  rcases k.pool.kalloc_cases with ⟨s, hs, hfree⟩ | ⟨page, s, hs, hfree⟩
  · simp only [hs]
    exact .pool (by rw [hfree])
  · simp only [hs]
    refine .pipes (fun h ↦ by cases h) ?_ fun hopen ↦ List.forall_mem_cons.mpr ⟨rfl, hopen⟩
    rw [pipePages_cons, hfree, ← Multiset.cons_coe, ← Multiset.singleton_add]
    abel

theorem closePipe_spec {page : BitVec 32} {writable : Bool} {bs bs' : List PipeBuf} {s s' : Pool}
    (h : closePipe img page writable bs s = .ok (bs', s')) :
    (s'.free : Multiset (BitVec 32)) + pipePages bs' = s.free + pipePages bs ∧
      ((∀ b ∈ bs, b.opened = true) → ∀ b ∈ bs', b.opened = true) := by
  induction bs generalizing bs' s' with
  | nil =>
    cases h
    exact ⟨rfl, id⟩
  | cons b bs ih =>
    rw [closePipe] at h
    split at h
    · have hpage : (if writable then { b with writeopen := false }
          else { b with readopen := false }).page = b.page := by
        cases writable <;> rfl
      simp only at h
      generalize (if writable then { b with writeopen := false }
          else { b with readopen := false }) = b' at h hpage
      split at h
      · obtain ⟨s₁, hkfree, h⟩ := bind_eq_ok_iff.mp h
        cases h
        refine ⟨?_, fun hopen ↦ (List.forall_mem_cons.mp hopen).2⟩
        rw [Pool.kfree_eq_ok hkfree, ← Multiset.cons_coe, ← Multiset.singleton_add, hpage,
          pipePages_cons]
        abel
      · next hclosed =>
        cases h
        refine ⟨by rw [pipePages_cons, pipePages_cons, hpage], fun hopen ↦
          List.forall_mem_cons.mpr ⟨?_, (List.forall_mem_cons.mp hopen).2⟩⟩
        rw [PipeBuf.opened]
        cases hr : b'.readopen <;> cases hw : b'.writeopen <;> simp_all
    · obtain ⟨⟨bs₁, s₁⟩, hrest, h⟩ := bind_eq_ok_iff.mp h
      cases h
      obtain ⟨hacc, hopened⟩ := ih hrest
      refine ⟨?_, fun hopen ↦ ?_⟩
      · rw [pipePages_cons, pipePages_cons, add_left_comm, hacc, add_left_comm]
      · obtain ⟨hb, hbs⟩ := List.forall_mem_cons.mp hopen
        exact List.forall_mem_cons.mpr ⟨hb, hopened hbs⟩

theorem effect_wait (h : k.wait img p = .ok k') : Effect img k p q .wait k' := by
  rw [wait] at h
  split at h
  · cases h
    exact .pool rfl
  · next c hc =>
    split at h
    · cases h
      exact .pool rfl
    · next z hz =>
      obtain ⟨s₁, hkfree, h⟩ := bind_eq_ok_iff.mp h
      obtain ⟨s₂, hfree, h⟩ := bind_eq_ok_iff.mp h
      cases h
      have hexited := List.find?_some hc
      rw [hz, Bool.and_eq_true] at hexited
      refine .reap hz hexited.2 ?_
      rw [PageDir.freevm_spec hfree, PageDir.account, Pool.kfree_eq_ok hkfree, ← Multiset.cons_coe,
        ← Multiset.singleton_add]
      change {z.kstack} + k.pool.free + z.pgdir.pages = k.pool.free + ({z.kstack} + z.pgdir.pages)
      abel

def Ordinary (c : VmCall) : Prop := ∀ arg, c ≠ .shmAlloc arg

theorem effect_call (hg : k.Guarded) (hq : k.proc p = some q) (hc : Ordinary c)
    (h : k.call img p q c = .ok k') : Effect img k p q c k' := by
  obtain ⟨hk, hsz⟩ := hg p q hq
  cases c with
  | fork => exact effect_fork hsz h
  | exec file => exact effect_exec h
  | sbrk n => exact effect_growproc hk hsz h
  | pipe =>
    cases h
    exact effect_pipealloc
  | pipeclose page writable =>
    obtain ⟨⟨bs, s⟩, hclose, h⟩ := bind_eq_ok_iff.mp h
    cases h
    exact .pipes (fun h ↦ by cases h) (closePipe_spec hclose).1 (closePipe_spec hclose).2
  | exit =>
    rw [Kernel.call] at h
    split at h
    · cases h
    · cases h
      exact .exit
  | wait => exact effect_wait h
  | shmAlloc arg => exact absurd rfl (hc arg)

theorem Effect.keeps (he : Effect img k p q c k') (hg : k.Guarded) (hq : k.proc p = some q) :
    k.Keeps k' := by
  cases he with
  | @pool _ s hfree => exact ⟨by rw [Kernel.pages, Kernel.pages, ← hfree], hg⟩
  | @space _ pd sz s _ hacc hpd hsz =>
    refine .of_put hg (fun q' hq' ↦ ?_) ?_
    · cases hq'
      exact ⟨hpd, hsz⟩
    · rw [PageDir.account, PageDir.account] at hacc
      rw [hq]
      change s.free + ({q.kstack} + pd.pages) = k.pool.free + ({q.kstack} + q.pgdir.pages)
      rw [add_left_comm, hacc, add_left_comm]
  | @child _ kstack d s s' hnone hfree hcopy =>
    obtain ⟨-, hsz⟩ := hg p q hq
    refine .of_put hg (fun q' hq' ↦ ?_) ?_
    · cases hq'
      exact ⟨PageDir.kernelOnly_copyuvm hsz hcopy, hsz⟩
    · rw [hnone, hfree, ← PageDir.copyuvm_spec hsz hcopy]
      change s'.free + ({kstack} + d.pages) = {kstack} + (s'.free + d.pages) + 0
      abel
  | pipes _ hacc =>
    refine ⟨?_, hg⟩
    rw [Kernel.pages, Kernel.pages, add_right_comm, hacc, add_right_comm]
  | exit =>
    have hsum : ∀ i, procPages ((k.exit p).proc i) = procPages (k.proc i) := by
      intro i
      change procPages ((k.proc i).map _) = _
      cases k.proc i <;> rfl
    constructor
    · rw [Kernel.pages, Finset.sum_congr rfl fun i _ ↦ hsum i]
      rfl
    · intro i q hq
      obtain ⟨q₀, hq₀, rfl⟩ := Option.map_eq_some_iff.mp hq
      exact hg i q₀ hq₀
  | reap hproc _ hfree =>
    refine .of_put hg (fun q' hq' ↦ by cases hq') ?_
    rw [hproc, hfree]
    exact add_zero _

/-- **Every call but `shm_alloc` moves pages around and loses none.** -/
theorem keeps_call (hg : k.Guarded) (hq : k.proc p = some q) (hc : Ordinary c)
    (h : k.call img p q c = .ok k') : k.Keeps k' := (effect_call hg hq hc h).keeps hg hq

end Conserve

/-! ## `shm_alloc` takes a page away -/

end Kernel

namespace PageDir

variable {pd : PageDir} {lo hi : ℕ}

theorem pte_of_clearRange {n : ℕ} {e : Pte} (h : (pd.clearRange lo hi).pte n = some e) :
    pd.pte n = some e := by
  simp only [clearRange] at h
  split at h
  · cases h
  · split at h
    · cases h
    · exact h

private theorem elim_le_elim {α : Type} {a b : Option α} (h : ∀ x, a = some x → b = some x)
    (f : α → Multiset (BitVec 32)) : a.elim 0 f ≤ b.elim 0 f := by
  cases a with
  | none => exact Multiset.zero_le _
  | some x => rw [h x rfl]

theorem pages_clearRange_le : (pd.clearRange lo hi).pages ≤ pd.pages := by
  refine add_le_add (add_le_add le_rfl (Finset.sum_le_sum fun i _ ↦ ?_))
    (Finset.sum_le_sum fun n _ ↦ ?_)
  · exact elim_le_elim (fun t ht ↦ (Option.filter_eq_some_iff.mp ht).1) _
  · exact elim_le_elim (fun e he ↦ pte_of_clearRange he) _

end PageDir

namespace Kernel

section Shm

variable {img : KernelImage} {k k' : Kernel} {size a : BitVec 32} {arg : Option (BitVec 32)}
  {p : Fin nproc} {q : VmProc}

theorem sysShmAlloc_spec (hg : k.Guarded) (h : k.sysShmAlloc arg = some (k', a)) :
    k'.Guarded ∧ (a = -1 ∧ k'.pages = k.pages ∨ a ∈ k.pool.free ∧ k'.pages + {a} ≤ k.pages) := by
  cases arg with
  | none =>
    cases h
    exact ⟨hg, Or.inl ⟨rfl, rfl⟩⟩
  | some size =>
    rw [sysShmAlloc] at h
    split at h
    · cases h
      exact ⟨hg, Or.inl ⟨rfl, rfl⟩⟩
    · rcases k.pool.kalloc_cases with ⟨s, hs, hfree⟩ | ⟨addr, s, hs, hfree⟩
      · simp only [hs] at h
        cases h
        exact ⟨hg, Or.inl ⟨rfl, by rw [pages, pages, ← hfree]⟩⟩
      · simp only [hs] at h
        split at h
        · cases h
          refine ⟨fun i q hq ↦ ?_, Or.inr ⟨hfree ▸ List.mem_cons_self, ?_⟩⟩
          · obtain ⟨q₀, hq₀, rfl⟩ := Option.map_eq_some_iff.mp hq
            obtain ⟨hk, hsz⟩ := hg i q₀ hq₀
            exact ⟨hk.of_pte_le fun n e ↦ PageDir.pte_of_clearRange, hsz⟩
          · rw [pages, pages, hfree, ← Multiset.cons_coe, ← Multiset.singleton_add, add_comm,
              ← add_assoc, ← add_assoc]
            refine add_le_add (add_le_add le_rfl (Finset.sum_le_sum fun i _ ↦ ?_)) le_rfl
            change procPages ((k.proc i).map _) ≤ procPages (k.proc i)
            cases k.proc i with
            | none => exact Multiset.zero_le _
            | some q => exact add_le_add le_rfl PageDir.pages_clearRange_le
        · cases h

theorem call_spec (hg : k.Guarded) (hq : k.proc p = some q) (h : k.call img p q c = .ok k') :
    k'.pages ≤ k.pages ∧ k'.Guarded := by
  have hof : Ordinary c → k'.pages ≤ k.pages ∧ k'.Guarded := fun hc ↦
    have hkeeps := keeps_call hg hq hc h
    ⟨hkeeps.pages.le, hkeeps.guarded⟩
  cases c with
  | shmAlloc arg =>
    rw [Kernel.call] at h
    split at h
    · cases h
    · next k₁ a hshm =>
      cases h
      obtain ⟨hg', ⟨-, hpages⟩ | ⟨-, hpages⟩⟩ := sysShmAlloc_spec hg hshm
      · exact ⟨hpages.le, hg'⟩
      · exact ⟨(Multiset.le_add_right _ _).trans hpages, hg'⟩
  | _ => exact hof fun _ hc ↦ by cases hc

theorem call_of_step {act : KernelAct} (h : k.step img act = some k') :
    ∃ q, k.running act.p = some q ∧
      Kernel.call img { k with pool := { k.pool with deny := act.deny } } act.p q act.call
        = .ok k' := by
  rw [step] at h
  split at h
  · cases h
  · next q hq => exact ⟨q, hq, toOption_eq_some_iff.mp h⟩

theorem step_spec {act : KernelAct} (hg : k.Guarded) (h : k.step img act = some k') :
    k'.pages ≤ k.pages ∧ k'.Guarded := by
  obtain ⟨q, hq, hcall⟩ := call_of_step h
  exact call_spec (k := { k with pool := { k.pool with deny := act.deny } }) hg
    (running_eq_some hq) hcall

/-! ## The invariant -/

/-- Each page is in one place, all of them are pages of the allocator's, and every process is
confined. -/
structure Inv (img : KernelImage) (k : Kernel) : Prop where
  nodup : k.pages.Nodup
  isPage : ∀ v ∈ k.pages, IsPage img.kend v
  guarded : k.Guarded

theorem Inv.step {act : KernelAct} (h : k.Inv img) (hs : k.step img act = some k') :
    k'.Inv img := by
  obtain ⟨hle, hg⟩ := step_spec h.guarded hs
  exact ⟨Multiset.nodup_of_le hle h.nodup, fun v hv ↦ h.isPage v (Multiset.mem_of_le hle hv), hg⟩

theorem pages_of_none (s : Pool) : Kernel.pages ⟨s, fun _ ↦ none, []⟩ = s.free := by
  rw [pages, Finset.sum_eq_zero fun _ _ ↦ by rfl, add_zero]
  exact add_zero _

theorem userinit_spec {s : Pool} (h : userinit img s = .ok (some k)) :
    k.pages = s.free ∧ k.Guarded ∧ k.pipes = [] := by
  rw [userinit] at h
  rcases s.kalloc_cases with ⟨s₁, hs, -⟩ | ⟨kstack, s₁, hs, hfree⟩
  · simp only [hs] at h
    cases h
  · simp only [hs] at h
    obtain ⟨⟨r, s₂⟩, hsetup, h⟩ := bind_eq_ok_iff.mp h
    cases r with
    | none => cases h
    | some pd =>
      obtain ⟨⟨b, pd', s₃⟩, hinit, h⟩ := bind_eq_ok_iff.mp h
      cases b with
      | false => cases h
      | true =>
        cases h
        rw [PageDir.inituvm] at hinit
        rcases s₂.kalloc_cases with ⟨s', hs', -⟩ | ⟨mem, s', hs', hfree'⟩
        · simp only [hs'] at hinit
          cases hinit
        · simp only [hs'] at hinit
          have hzero : 0 < userPages := by
            rw [userPages]
            decide
          rw [← Nat.zero_mul pgSize] at hinit
          have hacc :=
            (PageDir.account_of_map hzero hfree' hinit).trans (PageDir.setupkvm_spec hsetup)
          have hkeeps : Keeps ⟨s, fun _ ↦ none, []⟩ (put ⟨s, fun _ ↦ none, []⟩ initproc
              (some ⟨initproc, false, kstack, pd', pgSize⟩) s₃) := by
            refine .of_put nofun (fun q hq ↦ ?_) ?_
            · cases hq
              exact ⟨(PageDir.kernelOnly_setupkvm hsetup).mapUser hzero hinit,
                (by decide : pgSize ≤ kernBase)⟩
            · rw [hfree, ← Multiset.cons_coe, ← Multiset.singleton_add, ← hacc, PageDir.account]
              change s₃.free + ({kstack} + pd'.pages) = {kstack} + (s₃.free + pd'.pages + 0) + 0
              abel
          exact ⟨hkeeps.pages.trans (pages_of_none s), hkeeps.guarded, rfl⟩

theorem inv_of_init (h : (kernel img).init k) : k.Inv img := by
  obtain ⟨s, hnodup, hpage, hinit⟩ := h
  obtain ⟨hpages, hg, -⟩ := userinit_spec hinit
  refine ⟨?_, ?_, hg⟩ <;> rw [hpages]
  · exact Multiset.coe_nodup.mpr hnodup
  · exact hpage

theorem inv_of_reachable (h : (kernel img).Reachable k) : k.Inv img :=
  h.invariant (fun _ ↦ inv_of_init) fun _ _ _ hI hs ↦ hI.step hs

/-! ## Ownership -/

/-- A call of `shm_alloc` asks for one page at most. Longer ones write over whatever lies behind the
page, and nothing is certain afterwards. -/
def OnePage (_ : Kernel) (act : KernelAct) : Prop :=
  ∀ size, act.call = .shmAlloc (some size) → size.toNat ≤ pgSize

theorem Inv.sysShmAlloc (hI : k.Inv img) (h : k.sysShmAlloc (some size) = some (k', a))
    (ha : a ≠ -1) :
    k'.Inv img ∧ kernBase ≤ a.toNat ∧ a ∉ k'.pages ∧ 0 < size.toNat := by
  obtain ⟨hg, ⟨h1, -⟩ | ⟨hmem, hle⟩⟩ := sysShmAlloc_spec hI.guarded h
  · exact absurd h1 ha
  · have hle' : k'.pages ≤ k.pages := (Multiset.le_add_right _ _).trans hle
    refine ⟨⟨Multiset.nodup_of_le hle' hI.nodup,
      fun v hv ↦ hI.isPage v (Multiset.mem_of_le hle' hv), hg⟩, ?_, ?_, ?_⟩
    · refine (hI.isPage a ?_).mapped.1
      exact Multiset.mem_add.mpr (Or.inl (Multiset.mem_add.mpr (Or.inl hmem)))
    · -- it would be in the state before twice
      have hnodup := Multiset.nodup_of_le hle hI.nodup
      rw [add_comm, Multiset.singleton_add] at hnodup
      exact (Multiset.nodup_cons.mp hnodup).1
    · refine Nat.pos_of_ne_zero fun h0 ↦ ha ?_
      have hzero : size = 0 := BitVec.eq_of_toNat_eq h0
      rw [hzero] at h
      cases h
      rfl

theorem exists_proc_of_sysShmAlloc (hq : k.proc p = some q) (h : k.sysShmAlloc arg = some (k', a)) :
    ∃ q', k'.proc p = some q' := by
  rw [sysShmAlloc.eq_def] at h
  split at h
  · cases h
    exact ⟨q, hq⟩
  · split at h
    · cases h
      exact ⟨q, hq⟩
    · split at h
      · cases h
        exact ⟨q, hq⟩
      · split at h
        · cases h
          exact ⟨_, Option.map_eq_some_iff.mpr ⟨q, hq, rfl⟩⟩
        · cases h

theorem notMem_pages_of_startAt {k'' : Kernel} (hI : k.Inv img) (ha : a ∉ k.pages)
    (h : ((kernel img).startAt k).Reachable k'') : a ∉ k''.pages := by
  have hboth : k''.Inv img ∧ a ∉ k''.pages := by
    refine h.invariant (I := fun k ↦ k.Inv img ∧ a ∉ k.pages) ?_ ?_
    · rintro _ rfl
      exact ⟨hI, ha⟩
    · rintro k₁ act k₂ ⟨hI₁, ha₁⟩ hs
      have hle := (step_spec hI₁.guarded hs).1
      exact ⟨hI₁.step hs, fun hmem ↦ ha₁ (Multiset.mem_of_le hle hmem)⟩
  exact hboth.2

end Shm

end Kernel

open Kernel in
/-- **The caller of `shm_alloc` never owns what it gets.** In whatever state the kernel is, and
whichever process asks for however many bytes: if an address comes back, not one byte of the range
is mapped for the caller; and the page taken for up to a page of bytes is not on the free list in
any later state, whoever exits and is reaped. -/
theorem sysShmAlloc_unowned {img : KernelImage} {k k' : Kernel} {p : Fin nproc} {q : VmProc}
    {deny : List Bool} {size a : BitVec 32} (hk : (kernel img).ReachableUnder OnePage k)
    (hp : k.running p = some q)
    (h : ({ k with pool := { k.pool with deny := deny } } : Kernel).sysShmAlloc (some size)
      = some (k', a)) (ha : a ≠ -1) :
    0 < size.toNat ∧
    (∃ q', k'.proc p = some q' ∧
      ∀ x, a.toNat ≤ x → x < a.toNat + size.toNat → ¬q'.pgdir.UserMapped x) ∧
    (size.toNat ≤ pgSize →
      ∀ k'', ((kernel img).startAt k').ReachableUnder OnePage k'' → a ∉ k''.pool.free) := by
  have hI : ({ k with pool := { k.pool with deny := deny } } : Kernel).Inv img :=
    have hI := inv_of_reachable hk.reachable
    ⟨hI.nodup, hI.isPage, hI.guarded⟩
  obtain ⟨hI', hbase, hnot, hpos⟩ := hI.sysShmAlloc h ha
  obtain ⟨q', hq'⟩ := exists_proc_of_sysShmAlloc
    (k := { k with pool := { k.pool with deny := deny } }) (running_eq_some hp) h
  refine ⟨hpos, ⟨q', hq', fun x hx _ ↦ ?_⟩, fun _ k'' hk'' hmem ↦ ?_⟩
  · exact (hI'.guarded p q' hq').1.not_userMapped (hbase.trans hx)
  · apply notMem_pages_of_startAt hI' hnot hk''.reachable
    exact Multiset.mem_add.mpr (Or.inl (Multiset.mem_add.mpr (Or.inl hmem)))

/-! ## A kernel just started -/

namespace Kernel

def someImage : KernelImage where
  data := 0x80108000
  kend := 0x80116000
  data_aligned := by decide
  lt_data := by decide
  data_le := by decide
  kend_lt := by decide

@[irreducible] def somePage (i : ℕ) : BitVec 32 := BitVec.ofNat 32 (0x80400000 + pgSize * i)

def somePages : List (BitVec 32) := (List.range (2 * npdEntries + 16)).map somePage

private theorem toNat_somePage {i : ℕ} (hi : i ∈ List.range (2 * npdEntries + 16)) :
    (somePage i).toNat = 0x80400000 + 4096 * i ∧ i < 2064 := by
  rw [npdEntries, List.mem_range] at hi
  rw [somePage, BitVec.toNat_ofNat, pgSize]
  omega

theorem nodup_somePages : somePages.Nodup := by
  refine List.Nodup.map_on (fun i hi j hj hij ↦ ?_) List.nodup_range
  have hij := congrArg BitVec.toNat hij
  rw [(toNat_somePage hi).1, (toNat_somePage hj).1] at hij
  omega

theorem isPage_somePages : ∀ v ∈ somePages, IsPage someImage.kend v := by
  intro v hv
  obtain ⟨i, hi, rfl⟩ := List.mem_map.mp hv
  obtain ⟨hnat, hi⟩ := toNat_somePage hi
  refine ⟨?_, ?_, ?_⟩
  · rw [hnat, pgSize]
    omega
  · rw [BitVec.le_def, hnat]
    change 0x80116000 ≤ _
    omega
  · rw [BitVec.lt_def, v2p, BitVec.toNat_sub_of_le]
    · rw [hnat]
      change _ - 0x80000000 < 0xE000000
      omega
    · rw [BitVec.le_def, hnat]
      change 0x80000000 ≤ _
      omega

theorem ledger_somePages : Ledger someImage.kend (somePages : Multiset (BitVec 32)) :=
  ⟨Multiset.coe_nodup.mpr nodup_somePages, isPage_somePages⟩

theorem length_somePages : somePages.length = 2 * npdEntries + 16 := by
  rw [somePages, List.length_map, List.length_range]

theorem exists_setupkvm_somePages : ∃ pd s, PageDir.setupkvm someImage ⟨somePages, []⟩ =
    .ok (some pd, s) ∧ pd.Ready s (0 + 1) ∧ ∀ m, m < userPages → pd.pte m = none := by
  refine PageDir.exists_setupkvm someImage rfl ?_
  rw [length_somePages]
  omega

/-- A directory with one page, which is in use. -/
def onePage : PageDir :=
  ⟨0x80002000, fun _ ↦ some 0x80001000, fun n ↦ if n = 0 then some ⟨0, true, true⟩ else none,
    fun _ h ↦ by cases h⟩

theorem notMem_somePages_of_onePage {n : ℕ} {e : Pte} (he : onePage.pte n = some e) :
    p2v e.pa ∉ somePages := by
  obtain rfl := Option.some.inj (Option.ite_none_right_eq_some.mp he).2
  exact fun hmem ↦ absurd (isPage_somePages _ hmem) (by decide)

theorem exists_userinit (img : KernelImage) {s : Pool} {spare : ℕ} (hdeny : s.deny = [])
    (hfree : npdEntries + 3 + spare < s.free.length) : ∃ k q a l, userinit img s = .ok (some k) ∧
      k.running initproc = some q ∧ k.pool = ⟨a :: l, []⟩ ∧ spare ≤ l.length := by
  obtain ⟨kstack, l, hl⟩ : ∃ kstack l, s.free = kstack :: l :=
    List.exists_cons_of_ne_nil fun hnil ↦ by
      rw [hnil] at hfree
      exact absurd hfree (Nat.not_lt_zero _)
  have hs : s.kalloc = (some kstack, ⟨l, []⟩) := by
    rw [Pool.kalloc, hdeny, hl]
    rfl
  rw [hl, List.length_cons] at hfree
  have hlt : npdEntries + (spare + 1 + 1) < l.length := by omega
  obtain ⟨pd, s₁, hsetup, hready, hpte⟩ := PageDir.exists_setupkvm img (s := ⟨l, []⟩) rfl hlt
  obtain ⟨mem, s₂, hmem, hready⟩ := hready.kalloc
  have hone : 0 + 1 ≤ userPages := by
    rw [userPages]
    decide
  obtain ⟨pd', s₃, hmap, hready, -⟩ := hready.mapLoop (v2p mem) ⟨true, true⟩ (n := 0) (k := 1)
    (PageDir.lt_vpages hone) fun m _ hm ↦ hpte m (by omega)
  have hinit : pd.inituvm s₁ = .ok (true, pd', s₃) := by
    simp only [PageDir.inituvm, hmem]
    rw [← Nat.zero_mul pgSize, PageDir.mappages_one (PageDir.lt_vpages hone), hmap]
  have henough := hready.enough
  obtain ⟨a, l₃, hl₃⟩ : ∃ a l₃, s₃.free = a :: l₃ := by
    refine List.exists_cons_of_ne_nil fun hnil ↦ ?_
    rw [hnil, List.length_nil] at henough
    omega
  rw [hl₃, List.length_cons] at henough
  refine ⟨⟨s₃, update (fun _ ↦ none) initproc
    (some ⟨initproc, false, kstack, pd', pgSize⟩), []⟩,
    ⟨initproc, false, kstack, pd', pgSize⟩, a, l₃,
    ?_, ?_, ?_, by omega⟩
  · simp only [userinit, hs, hsetup, hinit, bind, Except.bind, pure, Except.pure]
  · simp only [running, update_self]
    rfl
  · rw [← hl₃, ← hready.deny]

theorem exists_userinit_somePages : ∃ k q a l,
    userinit someImage ⟨somePages, []⟩ = .ok (some k) ∧ k.running initproc = some q ∧
      k.pool = ⟨a :: l, []⟩ ∧ npdEntries + 3 ≤ l.length := by
  refine exists_userinit someImage rfl ?_
  rw [length_somePages]
  omega

theorem init_of_userinit {k : Kernel} (h : userinit someImage ⟨somePages, []⟩ = .ok (some k)) :
    (kernel someImage).init k :=
  ⟨⟨somePages, []⟩, nodup_somePages, isPage_somePages, h⟩

private theorem exists_sysShmAlloc : ∃ (k k' : Kernel) (q : VmProc) (a : BitVec 32),
    (kernel someImage).ReachableUnder OnePage k ∧ k.running initproc = some q ∧
    ({ k with pool := { k.pool with deny := [] } } : Kernel).sysShmAlloc (some 4096)
      = some (k', a) ∧ a ≠ -1 := by
  obtain ⟨k, q, a, l, hinit, hq, hpool, -⟩ := exists_userinit_somePages
  have hk := init_of_userinit hinit
  have ha : IsPage someImage.kend a := by
    refine (inv_of_init hk).isPage a ?_
    rw [pages, hpool]
    exact Multiset.mem_add.mpr (Or.inl (Multiset.mem_add.mpr (Or.inl List.mem_cons_self)))
  have hkalloc : Pool.kalloc { k.pool with deny := [] } = (some a, ⟨l, []⟩) := by
    rw [hpool]
    rfl
  have hcall :
      ∃ k', ({ k with pool := { k.pool with deny := [] } } : Kernel).sysShmAlloc (some 4096)
      = some (k', a) := by
    have htop : a.toNat + (4096 : BitVec 32).toNat ≤ kernBase + physTop := ha.mapped.2
    simp only [sysShmAlloc, hkalloc]
    rw [if_neg (by decide), if_pos htop]
    exact ⟨_, rfl⟩
  obtain ⟨k', hcall⟩ := hcall
  refine ⟨k, k', q, a, .init hk, hq, hcall, ?_⟩
  rintro rfl
  exact absurd ha.mapped.2 (by decide)

end Kernel

open Kernel in
/-- The first process asks for a page, and the page is lost. -/
theorem sysShmAlloc_unowned_init : ∃ (img : KernelImage) (k k' : Kernel) (a : BitVec 32),
    k.sysShmAlloc (some 4096) = some (k', a) ∧
    ∀ k'', ((kernel img).startAt k').ReachableUnder OnePage k'' → a ∉ k''.pool.free := by
  obtain ⟨k, k', q, a, hk, hq, hcall, ha⟩ := exists_sysShmAlloc
  exact ⟨someImage, _, k', a, hcall, (sysShmAlloc_unowned hk hq hcall ha).2.2 (by decide)⟩

open Kernel in
/-- The first process asks for a page and gets an address that it cannot use. -/
theorem sysShmAlloc_init_not_mapped : ∃ (img : KernelImage) (k k' : Kernel) (q' : VmProc)
    (a : BitVec 32), (kernel img).Reachable k ∧
      ({ k with pool := { k.pool with deny := [] } } : Kernel).sysShmAlloc (some 4096)
        = some (k', a) ∧
      k'.proc initproc = some q' ∧ ¬q'.pgdir.UserMapped a.toNat := by
  obtain ⟨k, k', q, a, hk, hq, hcall, ha⟩ := exists_sysShmAlloc
  have hI := inv_of_reachable hk.reachable
  obtain ⟨hI', hbase, -⟩ := Inv.sysShmAlloc (k := { k with pool := { k.pool with deny := [] } })
    ⟨hI.nodup, hI.isPage, hI.guarded⟩ hcall ha
  obtain ⟨q', hq'⟩ := exists_proc_of_sysShmAlloc
    (k := { k with pool := { k.pool with deny := [] } }) (running_eq_some hq) hcall
  exact ⟨someImage, k, k', q', a, hk.reachable, hcall, hq',
    (hI'.guarded _ _ hq').1.not_userMapped hbase⟩

end OperatingSystems
