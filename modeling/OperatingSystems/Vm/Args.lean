import OperatingSystems.Vm.Basic

/-!
# Arguments of system calls

The arguments of a system call are on the stack of the process, wherever its `esp` says that is, and
some of them are addresses again. `fetchint`, `fetchstr`, `argptr` and `argstr` check such an
address against the size of the process before the kernel reads or writes there.

All of it is arithmetic of 32-bit numbers that the process chose. A sum may wrap around, and the
checks are sound only because the size of a process is below `KERNBASE`: an address that is below
the size leaves room for four bytes, and for as many as a non-negative `int` can count. A read is
modelled with the fault it takes where no page is present, and each of the functions is shown to
take none.
-/

namespace OperatingSystems

def maxArg : ℕ := 32

structure Trapped where
  sz : BitVec 32
  pgdir : PageDir
  /-- What is at an address, where there is a page. -/
  mem : BitVec 32 → Byte
  /-- The stack pointer that was saved when the process trapped. -/
  esp : BitVec 32

namespace Trapped

variable (p : Trapped) {a : BitVec 32}

/-- `*a`, for an address in the space of the process. -/
def readByte (a : BitVec 32) : Except VmPanic Byte :=
  if (p.pgdir.pte (a.toNat / pgSize)).isSome then .ok (p.mem a) else .error .trap

/-- `*(int *)a` -/
def readInt (a : BitVec 32) : Except VmPanic (BitVec 32) := do
  let b₀ ← p.readByte a
  let b₁ ← p.readByte (a + 1#32)
  let b₂ ← p.readByte (a + 2#32)
  let b₃ ← p.readByte (a + 3#32)
  .ok (b₃ ++ b₂ ++ b₁ ++ b₀)

def fetchint (addr : BitVec 32) : Except VmPanic (Option (BitVec 32)) :=
  if p.sz ≤ addr ∨ p.sz < addr + 4 then .ok none
  else (p.readInt addr).map some

/-- The loop of `fetchstr`, at `s`: the length of the string from `pp` on, if it ends below `ep`. -/
def scanStr (pp ep : BitVec 32) : (fuel : ℕ) → BitVec 32 → Except VmPanic (Option (BitVec 32))
  | 0, _ => .ok none
  | fuel + 1, s =>
    if s < ep then do
      let c ← p.readByte s
      if c = 0 then .ok (some (s - pp)) else scanStr pp ep fuel (s + 1)
    else .ok none

def fetchstr (addr : BitVec 32) : Except VmPanic (Option (BitVec 32)) :=
  if p.sz ≤ addr then .ok none else p.scanStr addr p.sz (2 ^ 32) addr

def argint (n : BitVec 32) : Except VmPanic (Option (BitVec 32)) :=
  p.fetchint (p.esp + 4 + 4 * n)

def argptr (n size : BitVec 32) : Except VmPanic (Option (BitVec 32)) := do
  match ← p.argint n with
  | none => .ok none
  | some i =>
    if size.slt 0 ∨ p.sz ≤ i ∨ p.sz < i + size then .ok none else .ok (some i)

def argstr (n : BitVec 32) : Except VmPanic (Option (BitVec 32 × BitVec 32)) := do
  match ← p.argint n with
  | none => .ok none
  | some addr => (p.fetchstr addr).map (·.map fun len ↦ (addr, len))

/-- The loop of `sys_exec` over the argument vector, with `left` places left in `argv`. -/
def execArgs (uargv : BitVec 32) :
    (left : ℕ) → (i : BitVec 32) → Except VmPanic (Option (List (BitVec 32 × BitVec 32)))
  | 0, _ => .ok none
  | left + 1, i => do
    match ← p.fetchint (uargv + 4 * i) with
    | none => .ok none
    | some uarg =>
      if uarg = 0 then .ok (some [])
      else
        match ← p.fetchstr uarg with
        | none => .ok none
        | some len => (execArgs uargv left (i + 1)).map (·.map ((uarg, len) :: ·))

/-- `sys_exec`, up to the call of `exec`: the path and the arguments it is called with. -/
def sysExec : Except VmPanic
    (Option ((BitVec 32 × BitVec 32) × List (BitVec 32 × BitVec 32))) := do
  match ← p.argstr 0 with
  | none => .ok none
  | some path =>
    match ← p.argint 1 with
    | none => .ok none
    | some uargv => (p.execArgs uargv maxArg 0).map (·.map ((path, ·)))

/-! ## What is granted -/

/-- The size is below `KERNBASE`, and every page of the process is present. -/
structure Mapped : Prop where
  sz_lt : p.sz.toNat < kernBase
  present : ∀ n < (p.sz.toNat + pgSize - 1) / pgSize, (p.pgdir.pte n).isSome

/-- The `k` bytes from `a` on belong to the process: they are below its size without wrapping
around, and the page of each of them is present. -/
structure Grants (a : BitVec 32) (k : ℕ) : Prop where
  le : a.toNat + k ≤ p.sz.toNat
  byte : ∀ i < k, (a + BitVec.ofNat 32 i).toNat = a.toNat + i ∧ a.toNat + i < kernBase ∧
    (p.pgdir.pte ((a.toNat + i) / pgSize)).isSome

/-- A string of `len` bytes and the zero that ends it. -/
structure GrantsStr (a len : BitVec 32) : Prop where
  grants : p.Grants a (len.toNat + 1)
  /-- The length is not taken for a failure. -/
  nonneg : len.toInt = len.toNat
  nul : p.mem (a + len) = 0
  inside : ∀ i < len.toNat, p.mem (a + BitVec.ofNat 32 i) ≠ 0

variable {p}

theorem Mapped.grants (h : p.Mapped) {k : ℕ} (hk : a.toNat + k ≤ p.sz.toNat) : p.Grants a k := by
  have hsz := h.sz_lt
  refine ⟨hk, fun i hi ↦ ⟨?_, by omega, ?_⟩⟩
  · rw [BitVec.toNat_add, BitVec.toNat_ofNat]
    simp only [kernBase] at hsz
    omega
  · apply h.present
    simp only [pgSize]
    omega

theorem Mapped.readByte (h : p.Mapped) (ha : a.toNat < p.sz.toNat) :
    p.readByte a = .ok (p.mem a) := by
  have hbyte := (h.grants (k := 1) ha).byte 0 Nat.one_pos
  exact if_pos hbyte.2.2

theorem Mapped.readInt (h : p.Mapped) (ha : a.toNat + 4 ≤ p.sz.toNat) :
    ∃ v, p.readInt a = .ok v := by
  have hg := h.grants ha
  have hread : ∀ i < 4, p.readByte (a + BitVec.ofNat 32 i) =
      .ok (p.mem (a + BitVec.ofNat 32 i)) := by
    intro i hi
    apply h.readByte
    rw [(hg.byte i hi).1]
    omega
  have h₀ := h.readByte (a := a) (by omega)
  exact ⟨_, by
    rw [Trapped.readInt, h₀, hread 1 (by decide), hread 2 (by decide), hread 3 (by decide)]
    rfl⟩

theorem Mapped.fetchint (h : p.Mapped) (addr : BitVec 32) :
    ∃ r, p.fetchint addr = .ok r ∧ ∀ v, r = some v → p.Grants addr 4 := by
  rw [Trapped.fetchint]
  split
  next => exact ⟨none, rfl, fun _ hv ↦ absurd hv.symm (Option.some_ne_none _)⟩
  next hcheck =>
    have hsz := h.sz_lt
    simp only [kernBase] at hsz
    -- below the size there is room for the sum
    have hle : addr.toNat + 4 ≤ p.sz.toNat := by
      rw [not_or, BitVec.not_le, BitVec.not_lt, BitVec.lt_def, BitVec.le_def,
        BitVec.toNat_add] at hcheck
      have h4 : (4 : BitVec 32).toNat = 4 := rfl
      omega
    obtain ⟨v, hv⟩ := h.readInt hle
    rw [hv]
    exact ⟨some v, rfl, fun _ _ ↦ h.grants hle⟩

theorem Mapped.scanStr (h : p.Mapped) (addr : BitVec 32) (fuel : ℕ) : ∀ j : ℕ,
    addr.toNat + j ≤ p.sz.toNat → p.sz.toNat < addr.toNat + j + fuel →
    (∀ i < j, p.mem (addr + BitVec.ofNat 32 i) ≠ 0) →
    ∃ r, p.scanStr addr p.sz fuel (addr + BitVec.ofNat 32 j) = .ok r ∧
      (∀ len, r = some len → p.GrantsStr addr len) ∧
      (r = none → ∀ i, addr.toNat + i < p.sz.toNat → p.mem (addr + BitVec.ofNat 32 i) ≠ 0) := by
  have hsz := h.sz_lt
  simp only [kernBase] at hsz
  induction fuel with
  | zero =>
    intro j hj hfuel
    omega
  | succ fuel ih =>
    intro j hj hfuel hinside
    have hto : (addr + BitVec.ofNat 32 j).toNat = addr.toNat + j := by
      rw [BitVec.toNat_add, BitVec.toNat_ofNat]
      omega
    rw [Trapped.scanStr]
    by_cases hlt : addr.toNat + j < p.sz.toNat
    · rw [if_pos (BitVec.lt_def.2 (hto ▸ hlt)), h.readByte (hto ▸ hlt)]
      by_cases hc : p.mem (addr + BitVec.ofNat 32 j) = 0
      · have hlen : addr + BitVec.ofNat 32 j - addr = BitVec.ofNat 32 j := by
          rw [BitVec.add_comm, BitVec.add_sub_cancel]
        have hj' : (BitVec.ofNat 32 j).toNat = j := by
          rw [BitVec.toNat_ofNat]
          omega
        refine ⟨some (addr + BitVec.ofNat 32 j - addr), if_pos hc, ?_, ?_⟩
        · intro len heq
          rw [hlen] at heq
          cases heq
          refine ⟨h.grants (by omega), ?_, hc, fun i hi ↦ hinside i (by omega)⟩
          exact BitVec.toInt_eq_toNat_of_lt (by omega)
        · intro hnone
          exact absurd hnone (Option.some_ne_none _)
      · have hnext : addr + BitVec.ofNat 32 j + 1 = addr + BitVec.ofNat 32 (j + 1) := by
          rw [BitVec.add_assoc, BitVec.ofNat_add]
          rfl
        obtain ⟨r, hr, hspec⟩ := ih (j + 1) (by omega) (by omega) (by
          intro i hi
          rcases Nat.lt_succ_iff_lt_or_eq.1 hi with hi | rfl
          · exact hinside i hi
          · exact hc)
        refine ⟨r, ?_, hspec⟩
        rw [← hr, ← hnext]
        exact if_neg hc
    · rw [if_neg fun hs ↦ hlt (hto ▸ BitVec.lt_def.1 hs)]
      refine ⟨none, rfl, fun _ hl ↦ absurd hl.symm (Option.some_ne_none _), ?_⟩
      intro _ i hi
      exact hinside i (by omega)

/-- `fetchstr` does not fault; a string that it accepts belongs to the process, and it refuses one
only if there is no zero in the rest of the process. -/
theorem Mapped.fetchstr (h : p.Mapped) (addr : BitVec 32) :
    ∃ r, p.fetchstr addr = .ok r ∧ (∀ len, r = some len → p.GrantsStr addr len) ∧
      (r = none → ∀ i, addr.toNat + i < p.sz.toNat → p.mem (addr + BitVec.ofNat 32 i) ≠ 0) := by
  rw [Trapped.fetchstr]
  split
  next hle =>
    refine ⟨none, rfl, fun _ hl ↦ absurd hl.symm (Option.some_ne_none _), fun _ i hi ↦ ?_⟩
    have := BitVec.le_def.1 hle
    omega
  next hlt =>
    have hlt := BitVec.lt_def.1 (BitVec.not_le.1 hlt)
    have hscan := h.scanStr addr (2 ^ 32) 0 (by omega) (by omega)
      fun i hi ↦ absurd hi (Nat.not_lt_zero i)
    rwa [show addr + BitVec.ofNat 32 0 = addr from BitVec.add_zero addr] at hscan

theorem Mapped.argint (h : p.Mapped) (n : BitVec 32) :
    ∃ r, p.argint n = .ok r ∧ ∀ v, r = some v → p.Grants (p.esp + 4 + 4 * n) 4 :=
  h.fetchint _

theorem Mapped.argptr (h : p.Mapped) (n size : BitVec 32) :
    ∃ r, p.argptr n size = .ok r ∧
      ∀ a, r = some a → size.toInt = size.toNat ∧ p.Grants a size.toNat := by
  obtain ⟨r, hr, -⟩ := h.argint n
  rw [Trapped.argptr, hr]
  cases r with
  | none => exact ⟨none, rfl, fun _ ha ↦ absurd ha.symm (Option.some_ne_none _)⟩
  | some i =>
    by_cases hcheck : size.slt 0 ∨ p.sz ≤ i ∨ p.sz < i + size
    · exact ⟨none, if_pos hcheck, fun _ ha ↦ absurd ha.symm (Option.some_ne_none _)⟩
    · refine ⟨some i, if_neg hcheck, ?_⟩
      intro a ha
      cases ha
      have hsz := h.sz_lt
      simp only [kernBase] at hsz
      simp only [not_or, BitVec.lt_def, BitVec.le_def, BitVec.toNat_add] at hcheck
      obtain ⟨hneg, hi, hsum⟩ := hcheck
      -- a count that is not negative is below `2 ^ 31`, and so is the address
      have hint : size.toInt = size.toNat := by
        rw [BitVec.slt_iff_toInt_lt] at hneg
        rw [BitVec.toInt_eq_toNat_cond] at hneg ⊢
        split
        · rfl
        · exfalso
          apply hneg
          rw [if_neg ‹_›]
          have h0 : (0 : BitVec 32).toInt = 0 := rfl
          have := size.isLt
          omega
      have hlt : size.toNat < 2 ^ 31 := by
        rw [BitVec.toInt_eq_toNat_cond] at hint
        split at hint <;> omega
      exact ⟨hint, h.grants (by omega)⟩

theorem Mapped.argstr (h : p.Mapped) (n : BitVec 32) :
    ∃ r, p.argstr n = .ok r ∧ ∀ a len, r = some (a, len) → p.GrantsStr a len := by
  obtain ⟨r, hr, -⟩ := h.argint n
  rw [Trapped.argstr, hr]
  cases r with
  | none => exact ⟨none, rfl, fun _ _ ha ↦ absurd ha.symm (Option.some_ne_none _)⟩
  | some addr =>
    obtain ⟨r, hr, hstr, -⟩ := h.fetchstr addr
    refine ⟨r.map fun len ↦ (addr, len), ?_, ?_⟩
    · exact congrArg (Except.map (·.map fun len ↦ (addr, len))) hr
    · intro a len heq
      obtain ⟨_, hlen, heq⟩ := Option.map_eq_some_iff.1 heq
      cases heq
      exact hstr len hlen

/-- Every argument that `sys_exec` hands on is a string of the process. The induction is on the
places left in `argv`. -/
theorem Mapped.execArgs (h : p.Mapped) (uargv : BitVec 32) (left : ℕ) : ∀ i : BitVec 32,
    ∃ r, p.execArgs uargv left i = .ok r ∧
      ∀ argv, r = some argv → argv.length < left ∧ ∀ arg ∈ argv, p.GrantsStr arg.1 arg.2 := by
  have hfail : ∀ {argv : List (BitVec 32 × BitVec 32)} {P : Prop}, none = some argv → P :=
    fun heq ↦ absurd heq.symm (Option.some_ne_none _)
  induction left with
  | zero =>
    intro i
    exact ⟨none, rfl, fun _ ↦ hfail⟩
  | succ left ih =>
    intro i
    rw [Trapped.execArgs]
    obtain ⟨r, hr, -⟩ := h.fetchint (uargv + 4 * i)
    rw [hr]
    cases r with
    | none => exact ⟨none, rfl, fun _ ↦ hfail⟩
    | some uarg =>
      by_cases hzero : uarg = 0
      · refine ⟨some [], if_pos hzero, ?_⟩
        intro argv heq
        cases heq
        exact ⟨Nat.succ_pos left, fun _ harg ↦ absurd harg List.not_mem_nil⟩
      · obtain ⟨s, hs, hstr, -⟩ := h.fetchstr uarg
        obtain ⟨rest, hrest, hargs⟩ := ih (i + 1)
        cases s with
        | none =>
          refine ⟨none, (if_neg hzero).trans ?_, fun _ ↦ hfail⟩
          rw [hs]
          rfl
        | some len =>
          refine ⟨rest.map ((uarg, len) :: ·), (if_neg hzero).trans ?_, ?_⟩
          · rw [hs]
            exact congrArg (Except.map (·.map ((uarg, len) :: ·))) hrest
          · intro argv heq
            obtain ⟨argv', hrest', rfl⟩ := Option.map_eq_some_iff.1 heq
            obtain ⟨hlen, hargs⟩ := hargs argv' hrest'
            refine ⟨Nat.succ_lt_succ hlen, List.forall_mem_cons.2 ⟨hstr len rfl, hargs⟩⟩

/-- **Whatever a process passes, what the checks let through belongs to it.** None of the checks
faults, and every byte that one of them grants is below the size of the process, reached without
wrapping around, and in a page that is present. -/
theorem grants_of_mapped (h : p.Mapped) :
    (∀ addr, ∃ r, p.fetchint addr = .ok r ∧ ∀ v, r = some v → p.Grants addr 4) ∧
    (∀ addr, ∃ r, p.fetchstr addr = .ok r ∧ ∀ len, r = some len → p.GrantsStr addr len) ∧
    (∀ n size, ∃ r, p.argptr n size = .ok r ∧
      ∀ a, r = some a → size.toInt = size.toNat ∧ p.Grants a size.toNat) ∧
    (∀ n, ∃ r, p.argstr n = .ok r ∧ ∀ a len, r = some (a, len) → p.GrantsStr a len) ∧
    ∃ r, p.sysExec = .ok r ∧ ∀ path argv, r = some (path, argv) →
      p.GrantsStr path.1 path.2 ∧ ∀ arg ∈ argv, p.GrantsStr arg.1 arg.2 := by
  refine ⟨h.fetchint, ?_, h.argptr, h.argstr, ?_⟩
  · intro addr
    obtain ⟨r, hr, hstr, -⟩ := h.fetchstr addr
    exact ⟨r, hr, hstr⟩
  · have hfail : ∀ {x : (BitVec 32 × BitVec 32) × List (BitVec 32 × BitVec 32)} {P : Prop},
        none = some x → P := fun heq ↦ absurd heq.symm (Option.some_ne_none _)
    obtain ⟨r, hr, hpath⟩ := h.argstr 0
    rw [sysExec, hr]
    cases r with
    | none => exact ⟨none, rfl, fun _ _ ↦ hfail⟩
    | some path =>
      obtain ⟨u, hu, -⟩ := h.argint 1
      cases u with
      | none =>
        refine ⟨none, ?_, fun _ _ ↦ hfail⟩
        dsimp only [bind, Except.bind]
        rw [hu]
      | some uargv =>
        obtain ⟨rest, hrest, hargs⟩ := h.execArgs uargv maxArg 0
        refine ⟨rest.map (path, ·), ?_, ?_⟩
        · dsimp only [bind, Except.bind]
          rw [hu]
          exact congrArg (Except.map (·.map (path, ·))) hrest
        · intro path' argv heq
          obtain ⟨argv', hrest', heq⟩ := Option.map_eq_some_iff.1 heq
          cases heq
          exact ⟨hpath _ _ rfl, (hargs _ hrest').2⟩

/-- A process of one page that passes the address 8, with its stack at the end of the page. -/
def onePage : Trapped where
  sz := 4096
  pgdir :=
    { page := 0
      table := fun _ ↦ some 0
      pte := fun n ↦ if n = 0 then some ⟨0, ⟨true, true⟩⟩ else none
      absent := fun _ h ↦ absurd h (Option.some_ne_none _) }
  mem := fun a ↦ if a = 4092 then 8 else 0
  esp := 4088

theorem mapped_onePage : onePage.Mapped where
  sz_lt := by decide
  present := by
    intro n hn
    have h0 : n = 0 := by
      have : n < 1 := hn
      omega
    subst h0
    rfl

theorem grants_of_mapped_onePage :
    onePage.argptr 0 16 = .ok (some 8) ∧ onePage.Grants 8 16 ∧ onePage.GrantsStr 8 0 := by
  have hptr : onePage.argptr 0 16 = .ok (some 8) := by rfl
  have hstr : onePage.fetchstr 8 = .ok (some 0) := by rfl
  obtain ⟨_, hfetch, hargptr, _⟩ := grants_of_mapped mapped_onePage
  refine ⟨hptr, ?_, ?_⟩
  · obtain ⟨r, hr, hg⟩ := hargptr 0 16
    exact (hg 8 (Except.ok.inj (hr.symm.trans hptr))).2
  · obtain ⟨r, hr, hg⟩ := hfetch 8
    exact hg 0 (Except.ok.inj (hr.symm.trans hstr))

end Trapped

end OperatingSystems
