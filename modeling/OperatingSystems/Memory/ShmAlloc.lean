import OperatingSystems.Memory.Kalloc

/-!
# `sys_shm_alloc`: what it does to memory

The call takes one page from the allocator, clears as many bytes as the caller asked for, and
returns the kernel address of the page. The number of bytes is not compared with the size of the
page, so the clear runs on into whatever lies behind: other free pages, whose links it erases, or
pages in use.

`Kmem.ShmFrame` is what the call should do: change bytes of the page it takes only, and take that
page off the list. It does so exactly when all that it clears behind the page was zero before.
-/

namespace OperatingSystems

namespace Kmem

/-- `sys_shm_alloc`, given what `argint` delivered. No result means that a store of the clear
trapped. -/
def sysShmAlloc (s : Kmem) (arg : Option (BitVec 32)) : Option (Kmem × BitVec 32) :=
  match arg with
  | none => some (s, -1)
  | some size =>
    if size.toInt ≤ 0 then some (s, -1)
    else
      let (addr, s') := s.kalloc
      if addr = 0 then some (s', -1)
      else
        match s'.mem.memset addr.toNat 0 size.toNat with
        | none => none
        | some m => some ({ s' with mem := m }, addr)

/-- The call changed only bytes of page `a`, the free list lost page `a` and nothing else, and every
other page is as it was. -/
structure ShmFrame (s s' : Kmem) (a : BitVec 32) : Prop where
  changed : ∀ x, s'.mem x ≠ s.mem x → InPage a x
  list : ∃ l, s.FreeList (a :: l) ∧ s'.FreeList l
  others : ∀ p : BitVec 32, p.toNat % pgSize = 0 → p ≠ a → ∀ x, InPage p x → s'.mem x = s.mem x

/-- The bytes that the call clears behind the page it takes, the first one of the free list, are
zero already. -/
def ClearBehind (s : Kmem) (size : BitVec 32) : Prop :=
  ∀ x, s.freelist.toNat + pgSize ≤ x → x < s.freelist.toNat + size.toNat → s.mem x = 0

variable {kend size a : BitVec 32} {s s' : Kmem} {l : List (BitVec 32)}

theorem sysShmAlloc_eq_some {arg : Option (BitVec 32)} (hs : s.Sound kend l)
    (h : s.sysShmAlloc arg = some (s', a)) (ha : a ≠ -1) :
    ∃ size l', arg = some size ∧ l = a :: l' ∧ a = s.freelist ∧ 0 < size.toInt ∧
      s' = { mem := s.mem.fill a.toNat 0 size.toNat, freelist := s.next a } := by
  cases arg with
  | none =>
    cases h
    exact absurd rfl ha
  | some size =>
    simp only [sysShmAlloc] at h
    split at h
    · cases h
      exact absurd rfl ha
    · next hsize =>
      cases l with
      | nil =>
        rw [kalloc_of_nil hs.free] at h
        cases h
        exact absurd rfl ha
      | cons v l =>
        have hv : v ≠ 0 := hs.free.2.1
        simp only [kalloc_of_cons hs.free, hv, if_false] at h
        split at h
        · cases h
        · next m hm =>
          cases h
          obtain ⟨-, rfl⟩ := Memory.memset_eq_some_iff.mp hm
          exact ⟨size, l, rfl, rfl, hs.free.head_eq.symm, not_le.mp hsize, rfl⟩

theorem sysShmAlloc_of_cons (hs : s.Sound kend (a :: l)) (hsize : 0 < size.toInt)
    (htop : a.toNat + size.toNat ≤ kernBase + physTop) :
    s.sysShmAlloc (some size)
      = some ({ mem := s.mem.fill a.toNat 0 size.toNat, freelist := s.next a }, a) := by
  have ha : a ≠ 0 := hs.free.2.1
  have hpos : 0 < size.toNat := by
    rw [Nat.pos_iff_ne_zero]
    intro h0
    rw [BitVec.eq_of_toNat_eq (h0.trans (BitVec.toNat_zero).symm)] at hsize
    exact absurd hsize (by decide)
  have hmem : s.mem.memset a.toNat 0 size.toNat = some (s.mem.fill a.toNat 0 size.toNat) :=
    Memory.memset_eq_some_iff.mpr ⟨(Memory.mappedRange_iff hpos).mpr
      ⟨(hs.isPage a List.mem_cons_self).mapped.1, htop⟩, rfl⟩
  simp only [sysShmAlloc, not_le.mpr hsize, if_false, kalloc_of_cons hs.free, ha, hmem]

/-! ## The frame -/

theorem ShmFrame.clearBehind {f : BitVec 32} (ha : a = s.freelist)
    (h : s.ShmFrame { mem := s.mem.fill a.toNat 0 size.toNat, freelist := f } a) :
    s.ClearBehind size := by
  intro x hx hx'
  rw [← ha] at hx hx'
  by_contra hne
  have hfill : s.mem.fill a.toNat 0 size.toNat x = 0 := Memory.fill_of_mem (by omega) hx'
  have hin := h.changed x fun heq ↦ hne (heq.symm.trans hfill)
  exact absurd hin.2 (not_lt.mpr hx)

theorem shmFrame_of_clearBehind (hs : s.Sound kend (a :: l)) (h : s.ClearBehind size) :
    s.ShmFrame { mem := s.mem.fill a.toNat 0 size.toNat, freelist := s.next a } a := by
  have hhead : s.freelist = a := hs.free.head_eq
  have hchanged : ∀ x, s.mem.fill a.toNat 0 size.toNat x ≠ s.mem x → InPage a x := by
    intro x hx
    by_cases hrange : a.toNat ≤ x ∧ x < a.toNat + size.toNat
    · refine ⟨hrange.1, not_le.mp fun hbehind ↦ hx ?_⟩
      rw [Memory.fill_of_mem hrange.1 hrange.2, h x (hhead.symm ▸ hbehind) (hhead.symm ▸ hrange.2)]
    · exact absurd (Memory.fill_of_notMem hrange) hx
  have halign : a.toNat % pgSize = 0 := (hs.isPage a List.mem_cons_self).1
  have hothers : ∀ p : BitVec 32, p.toNat % pgSize = 0 → p ≠ a → ∀ x, InPage p x →
      s.mem.fill a.toNat 0 size.toNat x = s.mem x := by
    intro p hp hpa x hx
    by_contra hne
    exact hpa (InPage.unique hp halign hx (hchanged x hne))
  refine ⟨hchanged, ⟨l, hs.free, ?_⟩, hothers⟩
  -- the pages still on the list are other pages than `a`
  refine (hs.kalloc.of_mem fun p hp x hx ↦ hothers p ?_ ?_ x hx).free
  · exact (hs.isPage p (List.mem_cons_of_mem _ hp)).1
  · rintro rfl
    exact (List.nodup_cons.mp hs.nodup).1 hp

theorem clearBehind_of_le (h : size.toNat ≤ pgSize) : s.ClearBehind size := by
  intro x hx hx'
  omega

end Kmem

open Kmem in
/-- **When `sys_shm_alloc` keeps to its page.** In every state of the allocator that the kernel can
bring about, with any contents of memory and for every size for which the call returns an address:
it changes bytes of the page it takes only, takes just that page off the free list, and leaves every
other page alone, if and only if the bytes it clears behind that page were zero before. -/
theorem sysShmAlloc_frame_iff {kend size a : BitVec 32} {s s' : Kmem}
    (hr : (allocator kend).ReachableUnder Disciplined s)
    (h : s.sysShmAlloc (some size) = some (s', a)) (ha : a ≠ -1) :
    s.ShmFrame s' a ↔ s.ClearBehind size := by
  obtain ⟨l, hl⟩ := sound_of_reachableUnder hr
  obtain ⟨size', l', harg, rfl, hhead, -, rfl⟩ := sysShmAlloc_eq_some hl h ha
  cases harg
  exact ⟨ShmFrame.clearBehind hhead, shmFrame_of_clearBehind hl⟩

/-! ## Three adjacent free pages -/

open Kmem in
private theorem exists_three_free : ∃ s : Kmem,
    (allocator 0x80200000).ReachableUnder Disciplined s ∧
    s.Sound 0x80200000 [0x80400000, 0x80401000, 0x80402000] ∧ s.mem 0x80401004 = 1 := by
  have h0 : (allocator 0x80200000).ReachableUnder Disciplined ⟨fun _ ↦ 0, 0⟩ := .init rfl
  obtain ⟨s₁, e₁, h₁, l₁⟩ := reachableUnder_kfree h0 (l := []) ⟨rfl, List.nodup_nil, nofun⟩
    (v := 0x80402000) (by decide) (by decide)
  obtain ⟨s₂, e₂, h₂, l₂⟩ := reachableUnder_kfree h₁ l₁ (v := 0x80401000) (by decide) (by decide)
  obtain ⟨s₃, e₃, h₃, l₃⟩ := reachableUnder_kfree h₂ l₂ (v := 0x80400000) (by decide) (by decide)
  refine ⟨s₃, h₃, l₃, ?_⟩
  obtain ⟨-, rfl⟩ := kfree_eq_some_iff.mp e₁
  obtain ⟨-, rfl⟩ := kfree_eq_some_iff.mp e₂
  obtain ⟨-, rfl⟩ := kfree_eq_some_iff.mp e₃
  decide

open Kmem in
/-- One page asked for out of three: the other two stay on the list. -/
theorem sysShmAlloc_frame_one_page : ∃ s s' : Kmem,
    s.sysShmAlloc (some 4096) = some (s', 0x80400000) ∧ s.ClearBehind 4096 ∧
    s.ShmFrame s' 0x80400000 := by
  obtain ⟨s, hr, hl, -⟩ := exists_three_free
  have hclear : s.ClearBehind 4096 := clearBehind_of_le (by decide)
  have hcall : s.sysShmAlloc (some 4096) = some (_, 0x80400000) :=
    sysShmAlloc_of_cons hl (by decide) (by decide)
  exact ⟨s, _, hcall, hclear, (sysShmAlloc_frame_iff hr hcall (by decide)).mpr hclear⟩

open Kmem in
/-- Two pages asked for: the call clears the second page, which is free, and with it the link to the
third, so the list is one page short. -/
theorem sysShmAlloc_two_pages_not_frame : ∃ s s' : Kmem,
    (allocator 0x80200000).ReachableUnder Disciplined s ∧
    s.sysShmAlloc (some 8192) = some (s', 0x80400000) ∧
    s.FreeList [0x80400000, 0x80401000, 0x80402000] ∧ s'.FreeList [0x80401000] ∧
    ¬s.ShmFrame s' 0x80400000 := by
  obtain ⟨s, hr, hl, hbyte⟩ := exists_three_free
  refine ⟨s, _, hr, sysShmAlloc_of_cons hl (by decide) (by decide), hl.free, ?_, ?_⟩
  · have hsecond : s.next 0x80400000 = 0x80401000 := hl.free.tail.head_eq
    exact ⟨hsecond, by decide, Memory.loadWord_fill_zero (by decide) (by decide)⟩
  · intro hframe
    have hzero := hframe.clearBehind hl.free.head_eq.symm 0x80401004
      (by rw [hl.free.head_eq]; decide) (by rw [hl.free.head_eq]; decide)
    rw [hbyte] at hzero
    exact absurd hzero (by decide)

end OperatingSystems
