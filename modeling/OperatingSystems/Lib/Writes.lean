import Mathlib.Data.List.Nodup
import Mathlib.Data.Set.Function

/-!
# Sequences of writes to a store

A store is a function from addresses to contents, and a device accepts writes one at a time, in
order. A stop between two writes leaves the store with a *prefix* of the sequence applied, so the
facts a recovery argument needs are all about prefixes: which addresses a prefix can have touched,
and that replaying the whole sequence over any of its prefixes gives the sequence's own result.
-/

namespace OperatingSystems

open Function

variable {α β : Type*} [DecidableEq α] {ws : List (α × β)} {a : α}

def applyWrites (ws : List (α × β)) (d : α → β) : α → β :=
  ws.foldl (fun d w ↦ update d w.1 w.2) d

@[simp] theorem applyWrites_nil (d : α → β) : applyWrites [] d = d := rfl

@[simp] theorem applyWrites_cons (w : α × β) (ws : List (α × β)) (d : α → β) :
    applyWrites (w :: ws) d = applyWrites ws (update d w.1 w.2) := rfl

theorem applyWrites_append (ws vs : List (α × β)) (d : α → β) :
    applyWrites (ws ++ vs) d = applyWrites vs (applyWrites ws d) := by
  rw [applyWrites, List.foldl_append]
  rfl

/-- **The frame rule.** An address no write names keeps its contents. -/
theorem applyWrites_of_notMem (h : a ∉ ws.map Prod.fst) (d : α → β) : applyWrites ws d a = d a := by
  induction ws generalizing d with
  | nil => rfl
  | cons w ws ih =>
    rw [List.map_cons, List.mem_cons, not_or] at h
    rw [applyWrites_cons, ih h.2, update_of_ne h.1]

theorem applyWrites_congr_of_mem (h : a ∈ ws.map Prod.fst) (d d' : α → β) :
    applyWrites ws d a = applyWrites ws d' a := by
  induction ws generalizing d d' with
  | nil => exact absurd h (by simp)
  | cons w ws ih =>
    rw [applyWrites_cons, applyWrites_cons]
    by_cases hws : a ∈ ws.map Prod.fst
    · exact ih hws _ _
    · rw [List.map_cons, List.mem_cons] at h
      have ha : a = w.1 := h.resolve_right hws
      rw [applyWrites_of_notMem hws, applyWrites_of_notMem hws, ha, update_self,
        update_self]

theorem applyWrites_of_mem (hnd : (ws.map Prod.fst).Nodup) {w : α × β} (hw : w ∈ ws) (d : α → β) :
    applyWrites ws d w.1 = w.2 := by
  induction ws generalizing d with
  | nil => exact absurd hw (by simp)
  | cons v ws ih =>
    rw [List.map_cons, List.nodup_cons] at hnd
    rw [applyWrites_cons]
    rcases List.mem_cons.mp hw with rfl | hw
    · rw [applyWrites_of_notMem hnd.1, update_self]
    · exact ih hnd.2 hw _

theorem applyWrites_map_self (as : List α) (f d : α → β) (h : Set.EqOn d f {a | a ∉ as}) :
    applyWrites (as.map fun a ↦ (a, f a)) d = f := by
  induction as generalizing d with
  | nil => funext a; exact h (by simp)
  | cons b as ih =>
    rw [List.map_cons, applyWrites_cons]
    refine ih _ fun a ha ↦ ?_
    by_cases hab : a = b
    · rw [hab, update_self]
    · rw [update_of_ne hab]
      exact h (by simpa [hab] using ha)

/-! ## Prefixes of a sequence made of phases -/

omit [DecidableEq α] in
theorem take_append_singleton (B : List (α × β)) (e : α × β) (j : ℕ) :
    (∃ i, (B ++ [e]).take j = B.take i) ∨ (B ++ [e]).take j = B ++ [e] := by
  rcases Nat.lt_or_ge B.length j with h | h
  · refine Or.inr (List.take_of_length_le ?_)
    rw [List.length_append, List.length_singleton]
    omega
  · exact Or.inl ⟨j, List.take_append_of_le_length h⟩

omit [DecidableEq α] in
theorem take_append_cons_of_lt {A : List (α × β)} {j : ℕ} (h : A.length < j) (c : α × β)
    (B : List (α × β)) : (A ++ c :: B).take j = A ++ c :: B.take (j - A.length - 1) := by
  rw [List.take_append, List.take_of_length_le h.le]
  obtain ⟨i, hi⟩ : ∃ i, j - A.length = i + 1 := ⟨j - A.length - 1, by omega⟩
  rw [hi, List.take_succ_cons, Nat.add_sub_cancel]

end OperatingSystems
