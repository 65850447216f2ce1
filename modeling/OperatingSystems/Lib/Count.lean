import Mathlib.Data.Fintype.BigOperators

/-!
# Counting over a family with one changed member

Bookkeeping invariants of a system with many parties say that some counter equals a sum over the
parties. A step changes one party, so the sum changes by that party's old and new weight. The two
forms below, for sums and for cardinalities, avoid subtraction by putting the old weight on the
other side.
-/

namespace OperatingSystems

open Function

variable {ι A B M : Type*} [Fintype ι] [DecidableEq ι] {p : ι}

section View

variable {f : ι → A} {p : ι} {a : A}

omit [Fintype ι] in
theorem forall_update (Q : A → Prop) (ha : Q a) (hf : ∀ q, q ≠ p → Q (f q)) (q : ι) :
    Q (update f p a q) :=
  (Function.forall_update_iff f fun _ x ↦ Q x).mpr ⟨ha, hf⟩ q

omit [Fintype ι] in
theorem view_update (v : A → B) (h : v a = v (f p)) (q : ι) :
    v (update f p a q) = v (f q) :=
  (Function.forall_update_iff f fun q x ↦ v x = v (f q)).mpr ⟨h, fun _ _ ↦ rfl⟩ q

end View

section Sum

variable [AddCommMonoid M] {s : Finset ι} {w v : ι → M}

omit [Fintype ι] in
theorem sum_add_of_eq_off_mem (hp : p ∈ s) (h : ∀ q, q ≠ p → v q = w q) :
    ∑ q ∈ s, v q + w p = ∑ q ∈ s, w q + v p := by
  have hrest : ∑ q ∈ s.erase p, v q = ∑ q ∈ s.erase p, w q :=
    Finset.sum_congr rfl fun q hq ↦ h q (Finset.ne_of_mem_erase hq)
  rw [← Finset.add_sum_erase _ v hp, hrest, ← Finset.add_sum_erase _ w hp]
  ac_rfl

theorem sum_add_of_eq_off (p : ι) (h : ∀ q, q ≠ p → v q = w q) : ∑ q, v q + w p = ∑ q, w q + v p :=
  sum_add_of_eq_off_mem (Finset.mem_univ p) h

theorem sum_add_of_eq_off_pair {q : ι} (hpq : p ≠ q) (h : ∀ x, x ≠ p → x ≠ q → v x = w x) :
    ∑ x, v x + (w p + w q) = ∑ x, w x + (v p + v q) := by
  have hq := sum_add_of_eq_off (w := update w p (v p)) (v := v) q fun x hx ↦ by
    by_cases hxp : x = p
    · rw [hxp, update_self]
    · rw [update_of_ne hxp, h x hxp hx]
  have hp := sum_add_of_eq_off (w := w) (v := update w p (v p)) p fun x hx ↦
    update_of_ne hx ..
  rw [update_of_ne hpq.symm] at hq
  rw [update_self] at hp
  calc ∑ x, v x + (w p + w q) = (∑ x, v x + w q) + w p := by ac_rfl
    _ = (∑ x, update w p (v p) x + w p) + v q := by rw [hq]; ac_rfl
    _ = ∑ x, w x + (v p + v q) := by rw [hp]; ac_rfl

omit [Fintype ι] in
theorem sum_update_add_mem (hp : p ∈ s) (f : ι → A) (a : A) (w : A → M) :
    ∑ q ∈ s, w (update f p a q) + w (f p) = ∑ q ∈ s, w (f q) + w a := by
  have hoff := sum_add_of_eq_off_mem hp (w := fun q ↦ w (f q))
    (v := fun q ↦ w (update f p a q)) fun q hq ↦ by rw [update_of_ne hq]
  rwa [update_self] at hoff

omit [Fintype ι] in
theorem sum_update_of_notMem (hp : p ∉ s) (f : ι → A) (a : A) (w : A → M) :
    ∑ q ∈ s, w (update f p a q) = ∑ q ∈ s, w (f q) :=
  Finset.sum_congr rfl fun q hq ↦ by
    rw [update_of_ne]
    rintro rfl
    exact hp hq

theorem sum_update_add (f : ι → A) (p : ι) (a : A) (w : A → M) :
    ∑ q, w (update f p a q) + w (f p) = ∑ q, w (f q) + w a :=
  sum_update_add_mem (Finset.mem_univ p) f a w

theorem sum_update_of_eq (f : ι → A) (p : ι) {a : A} {w : A → M} (h : w a = w (f p)) :
    ∑ q, w (update f p a q) = ∑ q, w (f q) :=
  Finset.sum_congr rfl fun q _ ↦ view_update w h q

end Sum

section Card

variable (Q : A → Prop) [DecidablePred Q] {f : ι → A}

theorem card_filter_update_add (f : ι → A) (p : ι) (a : A) :
    (Finset.univ.filter fun q ↦ Q (update f p a q)).card + (if Q (f p) then 1 else 0)
      = (Finset.univ.filter fun q ↦ Q (f q)).card + if Q a then 1 else 0 := by
  rw [Finset.card_filter, Finset.card_filter]
  exact sum_update_add f p a fun x ↦ if Q x then 1 else 0

variable {Q}

omit [DecidableEq ι] in
theorem card_filter_pos_of (h : Q (f p)) : 0 < (Finset.univ.filter fun q ↦ Q (f q)).card :=
  Finset.card_pos.mpr ⟨p, Finset.mem_filter.mpr ⟨Finset.mem_univ p, h⟩⟩

omit [DecidableEq ι] in
theorem not_of_card_filter_eq_zero (h : (Finset.univ.filter fun q ↦ Q (f q)).card = 0) (p : ι) :
    ¬Q (f p) :=
  fun hp ↦ (card_filter_pos_of hp).ne' h

end Card

end OperatingSystems
