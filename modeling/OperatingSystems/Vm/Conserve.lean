import OperatingSystems.Lib.Places
import OperatingSystems.Vm.Ownership

/-!
# Each page in its place

A page that the allocator was given at boot is on the free list, or it is a kernel stack, a page of
one address space or the buffer of a pipe, and it is in one of these places only. `Kernel.pageAt`
says what is in a place, and the main theorem that no call but `shm_alloc` brings two pages into one
place, one page into two, or loses a page, wherever it runs out of memory.

What is freed is therefore never free already: none of the calls fails in `kfree`. The functions
that only give pages back do not fail at all, and the others fail for reasons of their own.
-/

namespace OperatingSystems

/-- The failures of `kfree`: what it is given is no page, or it is free. -/
def VmPanic.OfKfree (e : VmPanic) : Prop := e = .kfree ∨ e = .freeTwice

variable {c : VmCall}

namespace Kernel

variable {img : KernelImage} {k k' : Kernel} {p : Fin nproc} {q : VmProc} {s s' : Pool}
  {e : VmPanic}

theorem fork_error (hl : Ledger img.kend k.pages) (hg : k.Guarded) (hq : k.proc p = some q)
    (h : k.fork img p q = .error e) : (e = .pteShouldExist ∨ e = .pageNotPresent) ∧
      ∃ m, m * pgSize < q.sz ∧ q.pgdir.pte m = none := by
  rw [fork] at h
  split at h
  · cases h
  · rcases k.pool.kalloc_cases with ⟨s, hs, -⟩ | ⟨kstack, s, hs, hfree⟩
    · simp only [hs] at h
      cases h
    · simp only [hs] at h
      have hl₁ : Ledger img.kend (s.free + {kstack}) := by
        have hl₁ := hl.mono k.free_le_pages
        rwa [hfree, ← Multiset.cons_coe, ← Multiset.singleton_add, add_comm] at hl₁
      have hl₂ := hl₁.mono (Multiset.le_add_right _ _)
      rcases bind_eq_error_iff.mp h with h | ⟨⟨r, s₁⟩, hcopy, h⟩
      · exact PageDir.copyuvm_error (hg p q hq).2 hl₂ h
      cases r with
      | some d => cases h
      | none =>
        have hacc : (s₁.free : Multiset (BitVec 32)) + 0 = s.free :=
          PageDir.copyuvm_spec (hg p q hq).2 hcopy
        rw [← hacc, add_zero] at hl₁
        obtain ⟨s₂, hs₂⟩ := hl₁.exists_kfree
        rcases bind_eq_error_iff.mp h with h | ⟨_, -, h⟩
        · rw [hs₂] at h
          cases h
        · cases h

theorem growproc_error {n : BitVec 32} (hl : Ledger img.kend k.pages) (hg : k.Guarded)
    (hq : k.proc p = some q) (h : k.growproc img p q n = .error e) :
    e = .remap ∧ ∃ m, m < userPages ∧ q.sz ≤ m * pgSize ∧ (q.pgdir.pte m).isSome := by
  have hl₁ := hl.mono (account_le_pages hq)
  rw [growproc] at h
  split at h
  · rcases bind_eq_error_iff.mp h with h | ⟨⟨size, pd, s⟩, -, h⟩
    · exact PageDir.allocuvm_error hl₁ h
    · simp only at h
      split at h <;> cases h
  · split at h
    · obtain ⟨r, hr⟩ := PageDir.exists_deallocuvm ((q.sz + n.toNat) % 2 ^ 32) (hg p q hq).2 hl₁
      rcases bind_eq_error_iff.mp h with h | ⟨⟨size, pd, s⟩, -, h⟩
      · rw [hr] at h
        cases h
      · simp only at h
        split at h <;> cases h
    · cases h

theorem exists_closePipe (page : BitVec 32) (writable : Bool) {bs : List PipeBuf}
    (hl : Ledger img.kend (s.free + pipePages bs)) :
    ∃ r, closePipe img page writable bs s = .ok r := by
  induction bs with
  | nil => exact ⟨_, rfl⟩
  | cons b bs ih =>
    rw [pipePages_cons] at hl
    rw [closePipe]
    split
    · have hpage : (if writable then { b with writeopen := false }
          else { b with readopen := false }).page = b.page := by
        cases writable <;> rfl
      simp only
      generalize (if writable then { b with writeopen := false }
          else { b with readopen := false }) = b' at hpage
      split
      · rw [← hpage, ← add_assoc] at hl
        obtain ⟨s₁, hs₁⟩ := (hl.mono (Multiset.le_add_right _ _)).exists_kfree
        exact ⟨(bs, s₁), bind_eq_ok_iff.mpr ⟨s₁, hs₁, rfl⟩⟩
      · exact ⟨_, rfl⟩
    · obtain ⟨⟨bs₁, s₁⟩, h⟩ := ih (hl.mono (add_le_add le_rfl (Multiset.le_add_left _ _)))
      exact ⟨(b :: bs₁, s₁), bind_eq_ok_iff.mpr ⟨_, h, rfl⟩⟩

theorem exists_pipeclose (hl : Ledger img.kend k.pages) (page : BitVec 32) (writable : Bool) :
    ∃ k', k.pipeclose img page writable = .ok k' := by
  have hl₁ : Ledger img.kend (k.pool.free + pipePages k.pipes) :=
    hl.mono (add_le_add (Multiset.le_add_right _ _) le_rfl)
  obtain ⟨⟨bs, s⟩, h⟩ := exists_closePipe page writable hl₁
  exact ⟨{ k with pool := s, pipes := bs }, bind_eq_ok_iff.mpr ⟨_, h, rfl⟩⟩

theorem exists_wait (hl : Ledger img.kend k.pages) : ∃ k', k.wait img p = .ok k' := by
  rw [wait]
  split
  · exact ⟨_, rfl⟩
  · next c hc =>
    split
    · exact ⟨_, rfl⟩
    · next q hq =>
      have hl₁ := hl.mono (k.free_add_procPages_le c)
      rw [hq, show procPages (some q) = {q.kstack} + q.pgdir.pages from rfl, ← add_assoc] at hl₁
      obtain ⟨s₁, hs₁⟩ := (hl₁.mono (Multiset.le_add_right _ _)).exists_kfree
      have hfree : (s₁.free : Multiset (BitVec 32)) = k.pool.free + {q.kstack} := by
        rw [Pool.kfree_eq_ok hs₁, ← Multiset.cons_coe, ← Multiset.singleton_add, add_comm]
      rw [← hfree] at hl₁
      obtain ⟨s₂, hs₂⟩ : ∃ s₂, q.pgdir.freevm img.kend s₁ = .ok s₂ := PageDir.exists_freevm hl₁
      exact ⟨_, bind_eq_ok_iff.mpr ⟨s₁, hs₁, bind_eq_ok_iff.mpr ⟨s₂, hs₂, rfl⟩⟩⟩

/-- **No page is freed twice**, nor is anything freed that is no page. -/
theorem not_ofKfree_call (hl : Ledger img.kend k.pages) (hg : k.Guarded) (hq : k.proc p = some q)
    (hc : Ordinary c) (h : k.call img p q c = .error e) : ¬e.OfKfree := by
  cases c with
  | fork => rcases (fork_error hl hg hq h).1 with rfl | rfl <;> rintro (h | h) <;> cases h
  | exec file =>
    obtain ⟨k', hk'⟩ := exists_exec hl hq file
    rw [Kernel.call, hk'] at h
    cases h
  | sbrk n =>
    obtain ⟨rfl, -⟩ := growproc_error hl hg hq h
    rintro (h | h) <;> cases h
  | pipe => cases h
  | pipeclose page writable =>
    obtain ⟨k', hk'⟩ := exists_pipeclose hl page writable
    rw [Kernel.call, hk'] at h
    cases h
  | exit =>
    rw [Kernel.call] at h
    split at h
    · cases h
      rintro (h | h) <;> cases h
    · cases h
  | wait =>
    obtain ⟨k', hk'⟩ := exists_wait (p := p) hl
    rw [Kernel.call, hk'] at h
    cases h
  | shmAlloc arg => exact absurd rfl (hc arg)

end Kernel

/-! ## Places -/

/-- The places for pages in a process: its kernel stack, the page of its directory, those of its
tables, and the ones that its user pages map. -/
inductive ProcPlace
  | kstack
  | pgdir
  | table (i : ℕ)
  | user (n : ℕ)

/-- The places for pages: the positions of the free list, the processes, and the pipes. -/
inductive Place
  | free (j : ℕ)
  | proc (p : Fin nproc) (x : ProcPlace)
  | pipe (j : ℕ)

def VmProc.pageAt (q : VmProc) : ProcPlace → Option (BitVec 32)
  | .kstack => some q.kstack
  | .pgdir => some q.pgdir.page
  | .table i => if i < npdEntries then q.pgdir.table i else none
  | .user n => if n < userPages then (q.pgdir.pte n).map fun e ↦ p2v e.pa else none

/-- The page in a place. A slot that is `UNUSED` has none, nor has a pipe that is closed. -/
def Kernel.pageAt (k : Kernel) : Place → Option (BitVec 32)
  | .free j => k.pool.free[j]?
  | .proc p x => (k.proc p).bind fun q ↦ q.pageAt x
  | .pipe j => (k.pipes[j]?.filter PipeBuf.opened).map PipeBuf.page

theorem PageDir.placed_tables (pd : PageDir) :
    Placed (fun x : ℕ × Unit ↦ if x.1 < npdEntries then pd.table x.1 else none)
      (∑ i ∈ Finset.range npdEntries, tablePage (pd.table i)) := by
  refine Placed.sum (c := fun i (_ : Unit) ↦ if i < npdEntries then pd.table i else none)
    (fun i hi ↦ ?_) fun i hi _ ↦ if_neg fun hlt ↦ hi (Finset.mem_range.mpr hlt)
  simp only [if_pos (Finset.mem_range.mp hi)]
  exact Placed.option (pd.table i)

theorem PageDir.placed_user (pd : PageDir) :
    Placed (fun x : ℕ × Unit ↦
        if x.1 < userPages then (pd.pte x.1).map fun e ↦ p2v e.pa else none)
      (∑ n ∈ Finset.range userPages, mappedPage (pd.pte n)) := by
  have hmem : ∀ n ∈ Finset.range userPages, Placed
      (fun _ : Unit ↦ if n < userPages then (pd.pte n).map fun e ↦ p2v e.pa else none)
      (mappedPage (pd.pte n)) := by
    intro n hn
    have hmap : mappedPage (pd.pte n) = ((pd.pte n).map fun e ↦ p2v e.pa).elim 0 fun v ↦ {v} := by
      cases pd.pte n <;> rfl
    rw [hmap, if_pos (Finset.mem_range.mp hn)]
    exact Placed.option _
  have hsum := Placed.sum hmem fun n hn _ ↦ if_neg fun hlt ↦ hn (Finset.mem_range.mpr hlt)
  exact hsum

theorem VmProc.placed_pages (q : VmProc) : Placed q.pageAt ({q.kstack} + q.pgdir.pages) := by
  have hplaced := (Placed.single q.kstack).add
    (((Placed.single q.pgdir.page).add q.pgdir.placed_tables).add q.pgdir.placed_user)
  rw [PageDir.pages]
  refine hplaced.rename (Sum.elim (fun _ ↦ .kstack)
    (Sum.elim (Sum.elim (fun _ ↦ .pgdir) fun x ↦ .table x.1) fun x ↦ .user x.1)) ?_ ?_
  · rintro (_ | (_ | _) | _) <;> rfl
  · intro y v _
    cases y with
    | kstack => exact ⟨.inl (), rfl⟩
    | pgdir => exact ⟨.inr (.inl (.inl ())), rfl⟩
    | table i => exact ⟨.inr (.inl (.inr (i, ()))), rfl⟩
    | user n => exact ⟨.inr (.inr (n, ())), rfl⟩

namespace Kernel

variable {img : KernelImage} {k k' : Kernel} {p : Fin nproc} {q : VmProc}

theorem placed_procs (k : Kernel) :
    Placed (fun x : Fin nproc × ProcPlace ↦ (k.proc x.1).bind fun q ↦ q.pageAt x.2)
      (∑ p, procPages (k.proc p)) := by
  refine Placed.sum (c := fun p x ↦ (k.proc p).bind fun q ↦ q.pageAt x) (fun p _ ↦ ?_)
    fun p hp ↦ absurd (Finset.mem_univ p) hp
  cases k.proc p with
  | none => exact Placed.empty
  | some q => exact q.placed_pages

theorem placed_pages (h : k.Opened) : Placed k.pageAt k.pages := by
  have hpipes : ∀ j, k.pageAt (.pipe j) = (k.pipes.map PipeBuf.page)[j]? := by
    intro j
    change (k.pipes[j]?.filter PipeBuf.opened).map PipeBuf.page = _
    rw [List.getElem?_map]
    cases hj : k.pipes[j]? with
    | none => rfl
    | some b => rw [Option.filter_some, if_pos (h b (List.mem_of_getElem? hj))]
  refine (((Placed.list k.pool.free).add k.placed_procs).add
    (Placed.list (k.pipes.map PipeBuf.page))).rename
    (Sum.elim (Sum.elim .free fun x ↦ .proc x.1 x.2) .pipe) ?_ ?_
  · rintro ((_ | _) | j)
    · rfl
    · rfl
    · exact hpipes j
  · intro y v _
    cases y with
    | free j => exact ⟨.inl (.inl j), rfl⟩
    | proc p x => exact ⟨.inl (.inr (p, x)), rfl⟩
    | pipe j => exact ⟨.inr j, rfl⟩

/-! ## Pipes that are closed are gone -/

theorem Effect.opened (he : Effect img k p q c k') (hopen : k.Opened) : k'.Opened := by
  cases he with
  | pipes _ _ hbs => exact hbs hopen
  | _ => exact hopen

/-! ## Over a whole run -/

/-- What every run without `shm_alloc` keeps: the pages, and what makes them add up. -/
structure Conserves (m : Multiset (BitVec 32)) (k : Kernel) : Prop where
  pages : k.pages = m
  guarded : k.Guarded
  opened : k.Opened

theorem Conserves.step {m : Multiset (BitVec 32)} {act : KernelAct} (h : k.Conserves m)
    (hact : Ordinary act.call) (hs : k.step img act = some k') : k'.Conserves m := by
  obtain ⟨q, hq, hcall⟩ := call_of_step hs
  have hproc := running_eq_some hq
  have he := effect_call (k := { k with pool := { k.pool with deny := act.deny } }) h.guarded hproc
    hact hcall
  have hkeeps := he.keeps h.guarded hproc
  exact ⟨hkeeps.pages.trans h.pages, hkeeps.guarded, he.opened h.opened⟩

theorem conserves_of_reachable {s : Pool} {k₀ : Kernel} (h0 : userinit img s = .ok (some k₀))
    (hk : ((kernel img).startAt k₀).ReachableUnder (fun _ act ↦ Ordinary act.call) k) :
    k.Conserves s.free := by
  refine hk.invariant (I := Conserves s.free) ?_ fun _ _ _ _ h hact hs ↦ h.step hact hs
  rintro _ rfl
  obtain ⟨hpages, hg, hnone⟩ := userinit_spec h0
  refine ⟨hpages, hg, fun b hb ↦ ?_⟩
  rw [hnone] at hb
  cases hb

end Kernel

open Kernel in
/-- **Each page is in exactly one place.** After any sequence of calls but `shm_alloc`, whichever
calls of `kalloc` fail on the way, a page that the allocator had before the first process was made
is in one place and in no other, and no other page is anywhere. The next call does not free a page
that is free, nor anything that is no page. -/
theorem existsUnique_pageAt {img : KernelImage} {s : Pool} {k₀ k : Kernel}
    (hnodup : s.free.Nodup) (hpage : ∀ v ∈ s.free, IsPage img.kend v)
    (h0 : userinit img s = .ok (some k₀))
    (hk : ((kernel img).startAt k₀).ReachableUnder (fun _ act ↦ Ordinary act.call) k) :
    (∀ v ∈ s.free, ∃! x, k.pageAt x = some v) ∧
    (∀ x v, k.pageAt x = some v → v ∈ s.free) ∧
    ∀ p q c deny e, k.running p = some q → Ordinary c →
      call img { k with pool := { k.pool with deny := deny } } p q c = .error e → ¬e.OfKfree := by
  obtain ⟨hpages, hg, hopen⟩ := conserves_of_reachable h0 hk
  have hl : Ledger img.kend k.pages := by
    rw [hpages]
    exact ⟨Multiset.coe_nodup.mpr hnodup, hpage⟩
  have hplaced := placed_pages hopen
  refine ⟨fun v hv ↦ ?_, fun x v hx ↦ ?_, fun p q c deny e hq hc h ↦ ?_⟩
  · refine hplaced.existsUnique hl.nodup ?_
    rw [hpages]
    exact hv
  · have hmem := hplaced.mem_iff.mpr ⟨x, hx⟩
    rw [hpages] at hmem
    exact hmem
  · exact not_ofKfree_call (k := { k with pool := { k.pool with deny := deny } }) hl hg
      (running_eq_some hq) hc h

open Kernel in
/-- The first process makes a pipe. -/
theorem existsUnique_pageAt_pipe : ∃ (img : KernelImage) (s : Pool) (k₀ : Kernel),
    userinit img s = .ok (some k₀) ∧ ∀ v ∈ s.free, ∃! x, k₀.pipealloc.pageAt x = some v := by
  obtain ⟨k, q, a, l, hinit, hq, hpool, -⟩ := exists_userinit_somePages
  have hstep : (kernel someImage).step k ⟨initproc, .pipe, []⟩ = some k.pipealloc := by
    change Kernel.step someImage k ⟨initproc, .pipe, []⟩ = _
    rw [Kernel.step, hq, hpool]
    change some (Kernel.pipealloc { k with pool := ⟨a :: l, []⟩ }) = _
    rw [← hpool]
  have hk : ((kernel someImage).startAt k).ReachableUnder (fun _ act ↦ Ordinary act.call)
      k.pipealloc :=
    .step (.init rfl) (fun _ h ↦ by cases h) hstep
  exact ⟨someImage, _, k, hinit,
    (existsUnique_pageAt nodup_somePages isPage_somePages hinit hk).1⟩

end OperatingSystems
