import OperatingSystems.Lib.Threaded
import OperatingSystems.Lib.Transition
import OperatingSystems.Memory.Basic

/-!
# The physical page allocator

`kalloc.c`: 4096-byte pages on a singly linked list that is threaded through the first word of the
free pages themselves. The list is therefore only as good as the contents of the free pages, and the
invariant of the allocator, `Kmem.Sound`, is that following the links from `kmem.freelist` visits
distinct pages of allocatable memory and then ends.

It holds in every state that the rest of the kernel can bring about by calling `kalloc` and `kfree`
and storing into memory, as long as it keeps to two rules, `Kmem.Disciplined`: no page is freed that
is free already, and nothing is stored into a free page.
-/

namespace OperatingSystems

structure Kmem where
  mem : Memory
  freelist : BitVec 32

/-- Physical address of a kernel address, `V2P`. -/
def v2p (v : BitVec 32) : BitVec 32 := v - BitVec.ofNat 32 kernBase

/-- The pages that `kfree` accepts: aligned, behind the kernel's own image, which ends at `kend`,
and backed by physical memory. -/
def IsPage (kend v : BitVec 32) : Prop :=
  v.toNat % pgSize = 0 ∧ kend ≤ v ∧ v2p v < BitVec.ofNat 32 physTop

instance (kend v : BitVec 32) : Decidable (IsPage kend v) :=
  inferInstanceAs (Decidable (_ ∧ _ ∧ _))

variable {l : List (BitVec 32)}

namespace Kmem

def next (s : Kmem) (r : BitVec 32) : BitVec 32 := s.mem.loadWord r.toNat

/-- Free the page of physical memory pointed at by `v`. No result means `panic("kfree")`. -/
def kfree (kend : BitVec 32) (s : Kmem) (v : BitVec 32) : Option Kmem :=
  if v.toNat % pgSize ≠ 0 ∨ v < kend ∨ v2p v ≥ BitVec.ofNat 32 physTop then none
  else
    -- fill with junk to catch dangling refs
    match s.mem.memset v.toNat 1 pgSize with
    | none => none
    | some m => some { mem := m.storeWord v.toNat s.freelist, freelist := v }

/-- Allocate one page of physical memory; `0` if the memory cannot be allocated. -/
def kalloc (s : Kmem) : BitVec 32 × Kmem :=
  let r := s.freelist
  if r ≠ 0 then (r, { s with freelist := s.next r }) else (r, s)

def FreeList (s : Kmem) (l : List (BitVec 32)) : Prop := Threaded s.next 0 s.freelist l

theorem FreeList.unique {s : Kmem} {l' : List (BitVec 32)} (h : s.FreeList l) (h' : s.FreeList l') :
    l = l' :=
  Threaded.unique h h'

/-- Following the links from the head visits distinct allocatable pages, and ends. -/
structure Sound (kend : BitVec 32) (s : Kmem) (l : List (BitVec 32)) : Prop where
  free : s.FreeList l
  nodup : l.Nodup
  isPage : ∀ p ∈ l, IsPage kend p

end Kmem

def InPage (p : BitVec 32) (x : ℕ) : Prop := p.toNat ≤ x ∧ x < p.toNat + pgSize

instance (p : BitVec 32) (x : ℕ) : Decidable (InPage p x) := inferInstanceAs (Decidable (_ ∧ _))

/-! ## Pages -/

section Pages

variable {kend p q v : BitVec 32} {x : ℕ}

theorem IsPage.mapped (h : IsPage kend p) :
    kernBase ≤ p.toNat ∧ p.toNat + pgSize ≤ kernBase + physTop := by
  obtain ⟨halign, -, htop⟩ := h
  have htop : (p - 0x80000000#32).toNat < 0xE000000 := htop
  rw [BitVec.toNat_sub] at htop
  rw [pgSize] at *
  rw [kernBase, physTop]
  have := p.isLt
  simp only [BitVec.toNat_ofNat] at htop
  omega

theorem IsPage.ne_zero (h : IsPage kend p) : p ≠ 0 := by
  rintro rfl
  have := h.mapped.1
  rw [kernBase] at this
  exact absurd this (by decide)

theorem InPage.unique (hp : p.toNat % pgSize = 0) (hq : q.toNat % pgSize = 0) (hxp : InPage p x)
    (hxq : InPage q x) : p = q := by
  apply BitVec.eq_of_toNat_eq
  rw [InPage, pgSize] at hxp hxq
  rw [pgSize] at hp hq
  omega

theorem InPage.of_word (hx : p.toNat ≤ x) (hx' : x < p.toNat + 4) : InPage p x :=
  ⟨hx, hx'.trans_le (Nat.add_le_add_left (by decide) _)⟩

end Pages

/-! ## The operations -/

namespace Kmem

variable {kend v : BitVec 32} {s s' : Kmem} {l : List (BitVec 32)}

theorem kfree_eq_some_iff : s.kfree kend v = some s' ↔ IsPage kend v ∧
    s' = { mem := (s.mem.fill v.toNat 1 pgSize).storeWord v.toNat s.freelist, freelist := v } := by
  by_cases hv : IsPage kend v
  · have hcheck : ¬(v.toNat % pgSize ≠ 0 ∨ v < kend ∨ v2p v ≥ BitVec.ofNat 32 physTop) := by
      obtain ⟨halign, hend, htop⟩ := hv
      rintro (h | h | h)
      · exact h halign
      · exact absurd hend (BitVec.not_le.mpr h)
      · exact absurd htop (BitVec.not_lt.mpr h)
    have hmem : s.mem.memset v.toNat 1 pgSize = some (s.mem.fill v.toNat 1 pgSize) :=
      Memory.memset_eq_some_iff.mpr ⟨(Memory.mappedRange_iff (by decide)).mpr hv.mapped, rfl⟩
    rw [kfree, if_neg hcheck, hmem, Option.some.injEq, eq_comm]
    exact ⟨fun h ↦ ⟨hv, h⟩, And.right⟩
  · have hcheck : v.toNat % pgSize ≠ 0 ∨ v < kend ∨ v2p v ≥ BitVec.ofNat 32 physTop := by
      by_contra hno
      simp only [not_or, not_not, BitVec.not_lt, ge_iff_le, BitVec.not_le] at hno
      exact hv hno
    rw [kfree, if_pos hcheck]
    exact ⟨nofun, fun h ↦ absurd h.1 hv⟩

theorem kalloc_of_nil (h : s.FreeList []) : s.kalloc = (0, s) := by
  have hnull : s.freelist = 0 := h
  rw [kalloc]
  simp only [hnull, ne_eq, not_true_eq_false, if_false]

theorem kalloc_of_cons (h : s.FreeList (v :: l)) :
    s.kalloc = (v, { s with freelist := s.next v }) := by
  obtain ⟨hhead, hv, -⟩ := h
  rw [kalloc]
  simp only [hhead, ne_eq, hv, not_false_eq_true, if_true]

theorem Sound.of_mem (h : s.Sound kend l) {m : Memory}
    (hm : ∀ p ∈ l, ∀ x, InPage p x → m x = s.mem x) :
    ({ s with mem := m } : Kmem).Sound kend l where
  free := h.free.congr fun p hp ↦ Memory.loadWord_congr fun x hx hx' ↦ hm p hp x (.of_word hx hx')
  nodup := h.nodup
  isPage := h.isPage

theorem Sound.kfree (h : s.Sound kend l) (hs : s.kfree kend v = some s') (hv : v ∉ l) :
    s'.Sound kend (v :: l) := by
  obtain ⟨hpage, rfl⟩ := kfree_eq_some_iff.mp hs
  refine ⟨⟨rfl, hpage.ne_zero, ?_⟩, List.nodup_cons.mpr ⟨hv, h.nodup⟩, fun p hp ↦ ?_⟩
  · -- the new link is the old head, and the other links are in other pages
    rw [next, Memory.loadWord_storeWord]
    refine h.free.congr fun p hp ↦ Memory.loadWord_congr fun x hx hx' ↦ ?_
    have hne : ¬InPage v x := fun hxv ↦
      hv (InPage.unique hpage.1 (h.isPage p hp).1 hxv (.of_word hx hx') ▸ hp)
    change (s.mem.fill v.toNat 1 pgSize).storeWord v.toNat s.freelist x = s.mem x
    rw [Memory.storeWord_of_notMem fun hxv ↦ hne (.of_word hxv.1 hxv.2),
      Memory.fill_of_notMem hne]
  · rcases List.mem_cons.mp hp with rfl | hp
    · exact hpage
    · exact h.isPage p hp

theorem Sound.kalloc (h : s.Sound kend (v :: l)) :
    ({ s with freelist := s.next v } : Kmem).Sound kend l :=
  ⟨h.free.tail, (List.nodup_cons.mp h.nodup).2, fun p hp ↦ h.isPage p (List.mem_cons_of_mem _ hp)⟩

end Kmem

/-! ## The allocator as a machine -/

inductive KmemAct
  | kfree (v : BitVec 32)
  | kalloc
  /-- Any store of a byte by any part of the kernel or by a user process. -/
  | store (x : ℕ) (b : Byte)

namespace Kmem

def step (kend : BitVec 32) (s : Kmem) : KmemAct → Option Kmem
  | .kfree v => s.kfree kend v
  | .kalloc => some s.kalloc.2
  | .store x b => some { s with mem := Function.update s.mem x b }

/-- No page is freed twice, and the free pages belong to the allocator. -/
def Disciplined (s : Kmem) : KmemAct → Prop
  | .kfree v => ∀ l, s.FreeList l → v ∉ l
  | .kalloc => True
  | .store x _ => ∀ l, s.FreeList l → ∀ p ∈ l, ¬InPage p x

end Kmem

/-- The allocator from `kinit1` on: an empty list, and any contents of memory. -/
def allocator (kend : BitVec 32) : Machine Kmem KmemAct where
  init s := s.freelist = 0
  step := Kmem.step kend

namespace Kmem

variable {kend : BitVec 32} {s : Kmem}

theorem reachableUnder_kfree {v : BitVec 32} (h : (allocator kend).ReachableUnder Disciplined s)
    (hl : s.Sound kend l) (hpage : IsPage kend v) (hv : v ∉ l) : ∃ s', s.kfree kend v = some s' ∧
      (allocator kend).ReachableUnder Disciplined s' ∧ s'.Sound kend (v :: l) := by
  have hs := (kfree_eq_some_iff (s := s)).mpr ⟨hpage, rfl⟩
  refine ⟨_, hs, .step h (a := .kfree v) (fun l' hl' ↦ ?_) hs, hl.kfree hs hv⟩
  rw [hl'.unique hl.free]
  exact hv

theorem Sound.step {s' : Kmem} {a : KmemAct} (h : s.Sound kend l) (hd : s.Disciplined a)
    (hs : s.step kend a = some s') : ∃ l', s'.Sound kend l' := by
  cases a with
  | kfree v => exact ⟨v :: l, h.kfree hs (hd l h.free)⟩
  | kalloc =>
    cases hs
    cases l with
    | nil =>
      rw [kalloc_of_nil h.free]
      exact ⟨[], h⟩
    | cons v l =>
      rw [kalloc_of_cons h.free]
      exact ⟨l, h.kalloc⟩
  | store x b =>
    cases hs
    refine ⟨l, h.of_mem fun p hp y hy ↦ Function.update_of_ne ?_ _ _⟩
    rintro rfl
    exact hd l h.free p hp hy

/-- **The free list is a list.** In every state the kernel can bring about, the links lead through
distinct allocatable pages. -/
theorem sound_of_reachableUnder (h : (allocator kend).ReachableUnder Disciplined s) :
    ∃ l, s.Sound kend l :=
  h.invariant (I := fun s ↦ ∃ l, s.Sound kend l) (fun _ h0 ↦ ⟨[], h0, List.nodup_nil, nofun⟩)
    fun _ _ _ _ ⟨_, hl⟩ hd hs ↦ hl.step hd hs

end Kmem

end OperatingSystems
