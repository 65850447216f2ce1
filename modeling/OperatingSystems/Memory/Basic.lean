import Mathlib.Data.BitVec

/-!
# Kernel memory

Physical memory as the kernel sees it, byte by byte at the addresses of its own mapping: physical
address `p` is at `KERNBASE + p` for every `p` below `PHYSTOP`. Nothing is mapped between the end of
physical memory and the devices, so a store past that end traps in the kernel and does not return.

`memset` is the string instruction it compiles to, run store by store; `memset_eq_some_iff` is its
closed form.
-/

namespace OperatingSystems

open Function

def pgSize : ℕ := 4096

def kernBase : ℕ := 0x80000000

def physTop : ℕ := 0xE000000

abbrev Byte := BitVec 8

abbrev Memory := ℕ → Byte

/-- The kernel's mapping of physical memory. -/
def Mapped (a : ℕ) : Prop := kernBase ≤ a ∧ a < kernBase + physTop

instance (a : ℕ) : Decidable (Mapped a) := inferInstanceAs (Decidable (_ ∧ _))

namespace Memory

def loadWord (m : Memory) (a : ℕ) : BitVec 32 := m (a + 3) ++ m (a + 2) ++ m (a + 1) ++ m a

def storeWord (m : Memory) (a : ℕ) (v : BitVec 32) : Memory := fun x ↦
  if a ≤ x ∧ x < a + 4 then v.extractLsb' (8 * (x - a)) 8 else m x

def stosb (m : Memory) (addr : ℕ) (data : Byte) : ℕ → Option Memory
  | 0 => some m
  | cnt + 1 =>
    if Mapped addr then stosb (update m addr data) (addr + 1) data cnt else none

def stosl (m : Memory) (addr : ℕ) (data : BitVec 32) : ℕ → Option Memory
  | 0 => some m
  | cnt + 1 =>
    if Mapped addr ∧ Mapped (addr + 3) then stosl (m.storeWord addr data) (addr + 4) data cnt
    else none

/-- `memset(dst, c, n)`; no result means that a store trapped. -/
def memset (m : Memory) (dst : ℕ) (c : BitVec 32) (n : ℕ) : Option Memory :=
  if dst % 4 = 0 ∧ n % 4 = 0 then
    let c := c &&& 0xFF
    m.stosl dst (c <<< 24 ||| c <<< 16 ||| c <<< 8 ||| c) (n / 4)
  else m.stosb dst (c.setWidth 8) n

/-! ## Words -/

variable {m m' : Memory} {a x i dst n addr cnt : ℕ} {v : BitVec 32} {b : Byte}

theorem loadWord_congr (h : ∀ x, a ≤ x → x < a + 4 → m' x = m x) :
    m'.loadWord a = m.loadWord a := by
  rw [loadWord, loadWord, h a (by omega) (by omega), h (a + 1) (by omega) (by omega),
    h (a + 2) (by omega) (by omega), h (a + 3) (by omega) (by omega)]

theorem storeWord_of_notMem (h : ¬(a ≤ x ∧ x < a + 4)) : m.storeWord a v x = m x := if_neg h

theorem storeWord_add (h : i < 4) : m.storeWord a v (a + i) = v.extractLsb' (8 * i) 8 := by
  rw [storeWord, if_pos (by omega), Nat.add_sub_cancel_left]

@[simp] theorem loadWord_storeWord (m : Memory) (a : ℕ) (v : BitVec 32) :
    (m.storeWord a v).loadWord a = v := by
  have h0 := storeWord_add (m := m) (a := a) (v := v) (i := 0) (by omega)
  rw [loadWord, storeWord_add (by omega), storeWord_add (by omega), storeWord_add (by omega),
    show m.storeWord a v a = _ from h0]
  apply BitVec.eq_of_getLsbD_eq
  intro i hi
  -- the four bytes, from the lowest up
  have hbyte : i < 8 ∨ 8 ≤ i ∧ i < 16 ∨ 16 ≤ i ∧ i < 24 ∨ 24 ≤ i := by omega
  simp only [BitVec.getLsbD_append, BitVec.getLsbD_extractLsb']
  grind

/-! ## Filling a range -/

/-- Memory with the `n` bytes from `dst` on set to `b`. -/
def fill (m : Memory) (dst : ℕ) (b : Byte) (n : ℕ) : Memory := fun x ↦
  if dst ≤ x ∧ x < dst + n then b else m x

theorem fill_of_mem (h : dst ≤ x) (h' : x < dst + n) : m.fill dst b n x = b := if_pos ⟨h, h'⟩

theorem fill_of_notMem (h : ¬(dst ≤ x ∧ x < dst + n)) : m.fill dst b n x = m x := if_neg h

@[simp] theorem fill_zero (m : Memory) (dst : ℕ) (b : Byte) : m.fill dst b 0 = m := by
  funext x
  exact fill_of_notMem (by omega)

theorem loadWord_fill_zero (h : dst ≤ a) (h' : a + 4 ≤ dst + n) :
    (m.fill dst 0 n).loadWord a = 0 := by
  rw [loadWord, fill_of_mem h (by omega), fill_of_mem (by omega) (by omega),
    fill_of_mem (by omega) (by omega), fill_of_mem (by omega) (by omega)]
  rfl

theorem fill_fill (m : Memory) (dst : ℕ) (b : Byte) (k n : ℕ) :
    (m.fill dst b k).fill (dst + k) b n = m.fill dst b (k + n) := by
  funext x
  by_cases hx : dst ≤ x ∧ x < dst + (k + n)
  · rw [fill_of_mem hx.1 hx.2]
    by_cases hk : dst + k ≤ x
    · exact fill_of_mem hk (by omega)
    · rw [fill_of_notMem (by omega), fill_of_mem hx.1 (by omega)]
  · rw [fill_of_notMem hx, fill_of_notMem (by omega), fill_of_notMem (by omega)]

theorem update_eq_fill (m : Memory) (dst : ℕ) (b : Byte) :
    update m dst b = m.fill dst b 1 := by
  funext x
  by_cases hx : x = dst
  · rw [hx, update_self, fill_of_mem le_rfl (by omega)]
  · rw [update_of_ne hx, fill_of_notMem (by omega)]

theorem storeWord_eq_fill (hv : ∀ i < 4, v.extractLsb' (8 * i) 8 = b) :
    m.storeWord a v = m.fill a b 4 := by
  funext x
  by_cases hx : a ≤ x ∧ x < a + 4
  · obtain ⟨i, rfl⟩ := Nat.exists_eq_add_of_le hx.1
    rw [storeWord_add (by omega), fill_of_mem hx.1 hx.2, hv i (by omega)]
  · rw [storeWord_of_notMem hx, fill_of_notMem hx]

def MappedRange (a n : ℕ) : Prop := ∀ x, a ≤ x → x < a + n → Mapped x

theorem mappedRange_succ : MappedRange a (n + 1) ↔ Mapped a ∧ MappedRange (a + 1) n := by
  constructor
  · intro h
    exact ⟨h a le_rfl (by omega), fun x hx hx' ↦ h x (by omega) (by omega)⟩
  · rintro ⟨ha, h⟩ x hx hx'
    rcases Nat.eq_or_lt_of_le hx with rfl | hlt
    · exact ha
    · exact h x hlt (by omega)

theorem mappedRange_iff (hn : 0 < n) :
    MappedRange a n ↔ kernBase ≤ a ∧ a + n ≤ kernBase + physTop := by
  constructor
  · intro h
    have hfirst := h a le_rfl (by omega)
    have hlast := h (a + (n - 1)) (by omega) (by omega)
    rw [Mapped] at hfirst hlast
    omega
  · rintro ⟨hlo, hhi⟩ x hx hx'
    rw [Mapped]
    omega

theorem stosb_eq_some_iff {data : Byte} :
    m.stosb addr data cnt = some m' ↔ MappedRange addr cnt ∧ m' = m.fill addr data cnt := by
  induction cnt generalizing m addr with
  | zero =>
    rw [stosb, Option.some.injEq, fill_zero, eq_comm]
    exact ⟨fun h ↦ ⟨fun x _ _ ↦ by omega, h⟩, And.right⟩
  | succ cnt ih =>
    rw [stosb, Option.ite_none_right_eq_some, ih, mappedRange_succ, update_eq_fill, fill_fill,
      Nat.add_comm 1 cnt, and_assoc]

theorem stosl_eq_some_iff {data : BitVec 32} (hdata : ∀ i < 4, data.extractLsb' (8 * i) 8 = b) :
    m.stosl addr data cnt = some m' ↔
      MappedRange addr (4 * cnt) ∧ m' = m.fill addr b (4 * cnt) := by
  induction cnt generalizing m addr with
  | zero =>
    rw [stosl, Option.some.injEq, Nat.mul_zero, fill_zero, eq_comm]
    exact ⟨fun h ↦ ⟨fun x _ _ ↦ by omega, h⟩, And.right⟩
  | succ cnt ih =>
    have hrange : MappedRange addr (4 * (cnt + 1)) ↔
        (Mapped addr ∧ Mapped (addr + 3)) ∧ MappedRange (addr + 4) (4 * cnt) := by
      rw [show 4 * (cnt + 1) = 4 * cnt + 1 + 1 + 1 + 1 from rfl, mappedRange_succ,
        mappedRange_succ, mappedRange_succ, mappedRange_succ]
      simp only [Mapped]
      constructor
      · rintro ⟨h0, h1, h2, h3, h⟩
        exact ⟨⟨h0, h3⟩, h⟩
      · rintro ⟨⟨h0, h3⟩, h⟩
        exact ⟨h0, by omega, by omega, h3, h⟩
    rw [stosl, Option.ite_none_right_eq_some, ih, hrange, storeWord_eq_fill hdata, fill_fill,
      show 4 * (cnt + 1) = 4 + 4 * cnt by omega, and_assoc, and_assoc, and_assoc]

private theorem extractLsb'_fillWord (c : BitVec 32) (hi : i < 4) :
    ((c &&& 0xFF) <<< 24 ||| (c &&& 0xFF) <<< 16 ||| (c &&& 0xFF) <<< 8 |||
      (c &&& 0xFF)).extractLsb'
      (8 * i) 8 = c.setWidth 8 := by
  have hmask : (0xFF : BitVec 32) = (BitVec.allOnes 8).setWidth 32 := by decide
  have hi' : i = 0 ∨ i = 1 ∨ i = 2 ∨ i = 3 := by omega
  apply BitVec.eq_of_getLsbD_eq
  intro j hj
  simp only [hmask, BitVec.getLsbD_extractLsb', BitVec.getLsbD_or, BitVec.getLsbD_shiftLeft,
    BitVec.getLsbD_and, BitVec.getLsbD_setWidth, BitVec.getLsbD_allOnes]
  rcases hi' with rfl | rfl | rfl | rfl <;> grind

/-- **`memset` fills its range.** It returns exactly when every byte of the range is mapped. -/
theorem memset_eq_some_iff {c : BitVec 32} :
    m.memset dst c n = some m' ↔ MappedRange dst n ∧ m' = m.fill dst (c.setWidth 8) n := by
  rw [memset]
  split
  · next h =>
    rw [stosl_eq_some_iff fun i ↦ extractLsb'_fillWord c, Nat.mul_div_cancel' (by omega)]
  · exact stosb_eq_some_iff

end Memory

end OperatingSystems
