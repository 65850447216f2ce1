import Mathlib.Data.Finset.Max

/-!
# Deadlocks and the order of locks

Agents that wait for locks, and locks that agents hold. A deadlock is a set of agents each of which
waits for a lock that another one of them holds. Whatever numbering of the locks one takes, some
agent of such a set acquires against it: it waits for a lock with a number not above that of one it
holds. With two locks this says that both ways of nesting them occur.
-/

namespace OperatingSystems

variable {κ ℓ : Type*} {waits : κ → Option ℓ} {holder : ℓ → Option κ} {S : Finset κ}

/-- Each agent of the set waits for a lock that another agent of the set holds. -/
structure Deadlock (waits : κ → Option ℓ) (holder : ℓ → Option κ) (S : Finset κ) : Prop where
  nonempty : S.Nonempty
  blocked : ∀ c ∈ S, ∃ l, waits c = some l ∧ ∃ d ∈ S, d ≠ c ∧ holder l = some d

/-- **Every deadlock violates every order of the locks.** -/
theorem Deadlock.exists_inversion (h : Deadlock waits holder S) (rank : ℓ → ℕ) :
    ∃ c ∈ S, ∃ l l', waits c = some l ∧ holder l' = some c ∧ rank l ≤ rank l' := by
  -- an agent that waits for a lock of the highest rank waits for one that is against the order
  obtain ⟨c, hc, hmax⟩ := S.exists_max_image (fun c ↦ (waits c).elim 0 rank) h.nonempty
  obtain ⟨l, hl, d, hd, -, hholder⟩ := h.blocked c hc
  obtain ⟨l₂, hl₂, -⟩ := h.blocked d hd
  refine ⟨d, hd, l₂, l, hl₂, hholder, ?_⟩
  have := hmax d hd
  rwa [hl, hl₂] at this

end OperatingSystems
