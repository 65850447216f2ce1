import OperatingSystems.Memory.Basic

/-!
# The two `memmove`s

The kernel's `memmove` starts at the end when the destination begins inside the source; the one of
the user library always starts at the front. With the destination `k` bytes into the source it then
reads what it has written, and leaves the first `k` bytes over and over again.
-/

namespace OperatingSystems

open Function

abbrev AddressSpace := BitVec 32 → Byte

namespace AddressSpace

/-- `while(n-- > 0) *d++ = *s++;` -/
def copyUp (m : AddressSpace) (d s : BitVec 32) : ℕ → AddressSpace
  | 0 => m
  | n + 1 => copyUp (update m d (m s)) (d + 1) (s + 1) n

/-- `while(n-- > 0) *--d = *--s;` -/
def copyDown (m : AddressSpace) (d s : BitVec 32) : ℕ → AddressSpace
  | 0 => m
  | n + 1 => copyDown (update m (d - 1) (m (s - 1))) (d - 1) (s - 1) n

def memmove (m : AddressSpace) (dst src n : BitVec 32) : AddressSpace :=
  if src < dst ∧ dst < src + n then m.copyDown (dst + n) (src + n) n.toNat
  else m.copyUp dst src n.toNat

/-- `memmove` in `ulib.c`, where `n` is an `int`. -/
def ulibMemmove (m : AddressSpace) (dst src n : BitVec 32) : AddressSpace :=
  m.copyUp dst src n.toInt.toNat

/-- The `n` bytes from `dst` on are those that were at `src`. -/
def moved (m : AddressSpace) (dst src : BitVec 32) (n : ℕ) : AddressSpace := fun a ↦
  if (a - dst).toNat < n then m (src + (a - dst)) else m a

variable {m : AddressSpace} {d s : BitVec 32} {n : ℕ}

theorem add_one_add_ofNat (v : BitVec 32) (n : ℕ) :
    v + 1 + BitVec.ofNat 32 n = v + BitVec.ofNat 32 (n + 1) := by
  rw [BitVec.add_assoc, Nat.add_comm, BitVec.ofNat_add]
  rfl

theorem copyUp_succ : m.copyUp d s (n + 1) = update (m.copyUp d s n)
    (d + BitVec.ofNat 32 n) (m.copyUp d s n (s + BitVec.ofNat 32 n)) := by
  induction n generalizing m d s with
  | zero =>
    rw [copyUp, copyUp, copyUp]
    simp
  | succ n ih =>
    rw [copyUp, ih, ← copyUp, add_one_add_ofNat, add_one_add_ofNat]

theorem copyUp_apply (hn : n ≤ 2 ^ 32) (a : BitVec 32) : m.copyUp d s n a =
    if (a - d).toNat < n then m (s + BitVec.ofNat 32 ((a - d).toNat % (d - s).toNat)) else m a := by
  induction n generalizing a with
  | zero => rfl
  | succ n ih =>
    have ih := ih (by omega)
    rw [copyUp_succ, update_apply]
    by_cases ha : a = d + BitVec.ofNat 32 n
    · have hoff : (a - d).toNat = n := by
        rw [ha]
        bv_omega
      rw [if_pos ha, hoff, if_pos (Nat.lt_succ_self n), ih]
      -- the byte that is read is one that was written `d - s` rounds ago
      by_cases hlt : (s + BitVec.ofNat 32 n - d).toNat < n
      · have hle : (d - s).toNat ≤ n := by bv_omega
        have hsub : (s + BitVec.ofNat 32 n - d).toNat = n - (d - s).toNat := by bv_omega
        rw [if_pos hlt, hsub, ← Nat.mod_eq_sub_mod hle]
      · have hmod : n % (d - s).toNat = n := by
          rcases Nat.eq_zero_or_pos (d - s).toNat with h0 | hpos
          · rw [h0, Nat.mod_zero]
          · refine Nat.mod_eq_of_lt ?_
            bv_omega
        rw [if_neg hlt, hmod]
    · have hne : (a - d).toNat ≠ n := fun h ↦ ha (by bv_omega)
      rw [if_neg ha, ih]
      congr 1
      rw [eq_iff_iff]
      omega

theorem copyDown_eq_moved (hn : (d - s).toNat + n ≤ 2 ^ 32) :
    m.copyDown (d + BitVec.ofNat 32 n) (s + BitVec.ofNat 32 n) n = m.moved d s n := by
  induction n generalizing m with
  | zero => rfl
  | succ n ih =>
    have hlast : ∀ v : BitVec 32, v + BitVec.ofNat 32 (n + 1) - 1 = v + BitVec.ofNat 32 n := by
      intro v
      rw [BitVec.ofNat_add, ← BitVec.add_assoc]
      exact BitVec.add_sub_cancel _ _
    rw [copyDown, hlast, hlast, ih (by omega)]
    funext a
    rw [moved, moved, update_apply, update_apply]
    by_cases ha : a = d + BitVec.ofNat 32 n
    · have hoff : a - d = BitVec.ofNat 32 n := by
        rw [ha, BitVec.add_comm]
        exact BitVec.add_sub_cancel _ _
      have hn' : (BitVec.ofNat 32 n).toNat = n := by
        rw [BitVec.toNat_ofNat]
        exact Nat.mod_eq_of_lt (by omega)
      rw [if_pos ha, hoff, hn', if_neg (Nat.lt_irrefl n), if_pos n.lt_succ_self]
    · have hne : (a - d).toNat ≠ n := fun h ↦ ha (by bv_omega)
      rw [if_neg ha]
      by_cases hlt : (a - d).toNat < n
      · have hsrc : s + (a - d) ≠ d + BitVec.ofNat 32 n := by
          intro h
          bv_omega
        rw [if_pos hlt, if_pos (hlt.trans n.lt_succ_self), if_neg hsrc]
      · have hlt' : ¬(a - d).toNat < n + 1 := by omega
        rw [if_neg hlt, if_neg hlt']

variable {dst src : BitVec 32}

theorem copyUp_eq_moved_iff (hn : n ≤ 2 ^ 32) : m.copyUp dst src n = m.moved dst src n ↔
    ∀ x < n, m (src + BitVec.ofNat 32 (x % (dst - src).toNat)) = m (src + BitVec.ofNat 32 x) := by
  rw [funext_iff]
  constructor
  · intro h x hx
    have hoff : dst + BitVec.ofNat 32 x - dst = BitVec.ofNat 32 x := by bv_omega
    have hx' := h (dst + BitVec.ofNat 32 x)
    rw [copyUp_apply hn, moved, hoff, BitVec.toNat_ofNat, Nat.mod_eq_of_lt (by omega), if_pos hx,
      if_pos hx] at hx'
    exact hx'
  · intro h a
    rw [copyUp_apply hn, moved]
    by_cases ha : (a - dst).toNat < n
    · rw [if_pos ha, if_pos ha, h _ ha, BitVec.ofNat_toNat, BitVec.setWidth_eq]
    · rw [if_neg ha, if_neg ha]

theorem periodic_iff {f : ℕ → Byte} {k : ℕ} :
    (∀ x < n, f (x % k) = f x) ↔ ∀ i, i + k < n → f (i + k) = f i := by
  constructor
  · intro h i hi
    rw [← h _ hi, Nat.add_mod_right, h i (by omega)]
  · intro h x
    induction x using Nat.strongRecOn with
    | ind x ih =>
      intro hx
      by_cases hk : 0 < k ∧ k ≤ x
      · have hback := h (x - k) (by omega)
        rw [Nat.sub_add_cancel hk.2] at hback
        rw [hback, Nat.mod_eq_sub_mod hk.2, ih (x - k) (by omega) (by omega)]
      · rcases Nat.eq_zero_or_pos k with rfl | hpos
        · rw [Nat.mod_zero]
        · rw [Nat.mod_eq_of_lt (by omega)]

/-- **The two `memmove`s agree unless the source begins below the destination and runs into it**,
and then still if it repeats itself. The kernel's one moves the bytes in any case. -/
theorem memmove_eq_iff (m : AddressSpace) {dst src n : BitVec 32} (hn : n.toNat < 2 ^ 31)
    (hdst : dst.toNat + n.toNat ≤ 2 ^ 32) (hsrc : src.toNat + n.toNat ≤ 2 ^ 32) :
    m.memmove dst src n = m.moved dst src n.toNat ∧
    (m.ulibMemmove dst src n = m.memmove dst src n ↔
      (src < dst → dst < src + n → ∀ i, i + (dst - src).toNat < n.toNat →
        m (src + BitVec.ofNat 32 (i + (dst - src).toNat)) = m (src + BitVec.ofNat 32 i))) := by
  have hup : m.copyUp dst src n.toNat = m.moved dst src n.toNat ↔ _ :=
    (copyUp_eq_moved_iff (by omega)).trans
      (periodic_iff (f := fun x ↦ m (src + BitVec.ofNat 32 x)))
  have hint : n.toInt.toNat = n.toNat := by
    rw [BitVec.toInt_eq_toNat_of_lt (by omega), Int.toNat_natCast]
  have hmove : m.memmove dst src n = m.moved dst src n.toNat := by
    rw [memmove]
    split
    · next hover =>
      have hdown := copyDown_eq_moved (m := m) (d := dst) (s := src) (n := n.toNat) (by bv_omega)
      rwa [BitVec.ofNat_toNat, BitVec.setWidth_eq] at hdown
    · next hover =>
      refine hup.mpr fun i hi ↦ ?_
      -- only a destination equal to the source is less than `n` bytes above it
      have hzero : (dst - src).toNat = 0 := by
        by_contra hne
        exact hover (by bv_omega)
      rw [hzero, Nat.add_zero]
  refine ⟨hmove, ?_⟩
  rw [hmove, ulibMemmove, hint, hup]
  constructor
  · exact fun h _ _ ↦ h
  · intro h i hi
    by_cases hover : src < dst ∧ dst < src + n
    · exact h hover.1 hover.2 i hi
    · have hzero : (dst - src).toNat = 0 := by
        by_contra hne
        exact hover (by bv_omega)
      rw [hzero, Nat.add_zero]

theorem memmove_eq_iff_two : ∃ m : AddressSpace, m 0x1000 ≠ m 0x1001 ∧
    m.memmove 0x1001 0x1000 2 = m.moved 0x1001 0x1000 2 :=
  ⟨fun a ↦ a.setWidth 8, by decide, (memmove_eq_iff _ (by decide) (by decide) (by decide)).1⟩

/-- Two bytes are moved up by one. -/
theorem exists_ulibMemmove_ne :
    ∃ m : AddressSpace, m.ulibMemmove 0x1001 0x1000 2 ≠ m.memmove 0x1001 0x1000 2 :=
  ⟨fun a ↦ a.setWidth 8, fun h ↦ absurd (congrFun h 0x1002) (by decide)⟩

end AddressSpace

end OperatingSystems
