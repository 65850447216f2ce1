import Mathlib.Data.BitVec

/-!
# Queues in a ring of cells

A queue of at most `N` elements is kept in `N` cells, the element with the running number `k` in
cell `k % N`. The running numbers are never reset, and a program keeps them in words of a fixed
width: that they wrap does no harm as long as `N` divides the number of words.
-/

namespace OperatingSystems

open Function

variable {β : Type*} {N r a m : ℕ} {buf : ℕ → β} {l : List β} {x : β}

/-- The cells hold the elements `l`, the first of which has the running number `r`. -/
structure RingHolds (N : ℕ) (buf : ℕ → β) (r : ℕ) (l : List β) : Prop where
  length_le : l.length ≤ N
  cell : ∀ k (hk : k < l.length), buf ((r + k) % N) = l[k]

namespace RingHolds

theorem nil (N : ℕ) (buf : ℕ → β) (r : ℕ) : RingHolds N buf r [] :=
  ⟨Nat.zero_le N, fun _ hk ↦ absurd hk (Nat.not_lt_zero _)⟩

theorem head (h : RingHolds N buf r (x :: l)) : buf (r % N) = x :=
  h.cell 0 (Nat.succ_pos _)

theorem tail (h : RingHolds N buf r (x :: l)) : RingHolds N buf (r + 1) l := by
  refine ⟨(Nat.le_succ _).trans h.length_le, fun k hk ↦ ?_⟩
  have hcell := h.cell (k + 1) (Nat.succ_lt_succ hk)
  rwa [← Nat.add_assoc, Nat.add_right_comm, List.getElem_cons_succ] at hcell

theorem left {l' : List β} (h : RingHolds N buf r (l ++ l')) : RingHolds N buf r l := by
  have hle : l.length ≤ (l ++ l').length := by simp
  refine ⟨hle.trans h.length_le, fun k hk ↦ ?_⟩
  rw [h.cell k (hk.trans_le hle), List.getElem_append_left hk]

theorem push (h : RingHolds N buf r l) (hlt : l.length < N) (x : β) :
    RingHolds N (update buf ((r + l.length) % N) x) r (l ++ [x]) := by
  refine ⟨by simpa using Nat.succ_le_of_lt hlt, fun k hk ↦ ?_⟩
  rw [List.length_append, List.length_singleton, Nat.lt_succ_iff] at hk
  rcases hk.lt_or_eq with hk | rfl
  · have hne : (r + k) % N ≠ (r + l.length) % N := by
      intro heq
      have hmod : k % N = l.length % N := Nat.ModEq.add_left_cancel' r heq
      rw [Nat.mod_eq_of_lt (hk.trans hlt), Nat.mod_eq_of_lt hlt] at hmod
      exact hk.ne hmod
    rw [update_of_ne hne, h.cell k hk, List.getElem_append_left hk]
  · rw [update_self, List.getElem_concat_length rfl]

end RingHolds

/-! ## Running numbers in words -/

variable {w : ℕ}

theorem ofNat_toNat_mod (hN : N ∣ 2 ^ w) (k : ℕ) : (BitVec.ofNat w k).toNat % N = k % N := by
  rw [BitVec.toNat_ofNat, Nat.mod_mod_of_dvd k hN]

theorem ofNat_add_inj {n : ℕ} (hm : m < 2 ^ w) (hn : n < 2 ^ w) :
    BitVec.ofNat w (a + m) = BitVec.ofNat w (a + n) ↔ m = n := by
  refine ⟨fun heq ↦ ?_, fun heq ↦ by rw [heq]⟩
  rw [BitVec.ofNat_add, BitVec.ofNat_add, BitVec.add_right_inj] at heq
  simpa [Nat.mod_eq_of_lt hm, Nat.mod_eq_of_lt hn] using congrArg BitVec.toNat heq

theorem toNat_ofNat_sub (hm : m < 2 ^ w) :
    (BitVec.ofNat w (a + m) - BitVec.ofNat w a).toNat = m := by
  rw [BitVec.ofNat_add, BitVec.add_comm, BitVec.add_sub_cancel, BitVec.toNat_ofNat,
    Nat.mod_eq_of_lt hm]

end OperatingSystems
