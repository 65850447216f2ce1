import Mathlib.Tactic.Common

/-!
# Places that own resources

A family of places, each of which holds a resource or the null resource `0`, and a set of resources
that are marked as used. The bookkeeping is exact when the places hold used resources only, no two
of them the same one, and every used resource has its place: the non-null places and the used
resources then correspond one to one.

The rules say how the two ways to change the family keep this: a free resource enters an empty
place, and a set of places is emptied while what they held is marked as free.
-/

namespace OperatingSystems

variable {ι β : Type*} [Zero β]

/-- The places `A` hold exactly the resources in `used`, each once. -/
structure Owns (A : ι → β) (used : β → Prop) : Prop where
  used_of : ∀ x, A x ≠ 0 → used (A x)
  inj : ∀ x y, A x ≠ 0 → A x = A y → x = y
  owner : ∀ b, used b → ∃ x, A x = b
  null : ¬used 0

namespace Owns

variable {A A' : ι → β} {used used' : β → Prop} {x : ι} {b : β}

theorem ne_zero (h : Owns A used) (hb : used b) : b ≠ 0 := by
  rintro rfl
  exact h.null hb

theorem ne_of_not_used (h : Owns A used) (hb : ¬used b) (hb₀ : b ≠ 0) (x : ι) : A x ≠ b := by
  rintro rfl
  exact hb (h.used_of x hb₀)

theorem congr (h : Owns A used) (hA : ∀ x, A' x = A x) (hu : ∀ b, used' b ↔ used b) :
    Owns A' used' := by
  obtain rfl : A' = A := funext hA
  obtain rfl : used' = used := funext fun b ↦ propext (hu b)
  exact h

theorem existsUnique_owner (h : Owns A used) (hb : used b) : ∃! x, A x = b := by
  obtain ⟨x, rfl⟩ := h.owner b hb
  exact ⟨x, rfl, fun y hy ↦ (h.inj x y (h.ne_zero hb) hy.symm).symm⟩

theorem alloc [DecidableEq ι] (h : Owns A used) (hx : A x = 0) (hb : ¬used b) (hb₀ : b ≠ 0)
    (hA : ∀ y, A' y = if y = x then b else A y) (hu : ∀ c, used' c ↔ c = b ∨ used c) :
    Owns A' used' := by
  have hold : ∀ {y}, y ≠ x → A' y = A y := fun {y} hy ↦ by rw [hA, if_neg hy]
  have hnew : A' x = b := by rw [hA, if_pos rfl]
  refine ⟨?_, ?_, ?_, ?_⟩
  · intro y hy
    rw [hu]
    by_cases hyx : y = x
    · exact .inl (hyx ▸ hnew)
    · rw [hold hyx] at hy ⊢
      exact .inr (h.used_of y hy)
  · intro y z hy hyz
    by_cases hyx : y = x <;> by_cases hzx : z = x
    · rw [hyx, hzx]
    · rw [hyx, hnew, hold hzx] at hyz
      exact absurd hyz.symm (h.ne_of_not_used hb hb₀ z)
    · rw [hzx, hnew, hold hyx] at hyz
      exact absurd hyz (h.ne_of_not_used hb hb₀ y)
    · rw [hold hyx] at hy hyz
      rw [hold hzx] at hyz
      exact h.inj y z hy hyz
  · intro c hc
    rcases (hu c).mp hc with rfl | hc
    · exact ⟨x, hnew⟩
    · obtain ⟨y, rfl⟩ := h.owner c hc
      have hyx : y ≠ x := by
        rintro rfl
        exact h.null (hx ▸ hc)
      exact ⟨y, hold hyx⟩
  · rw [hu]
    rintro (h₀ | h₀)
    · exact hb₀ h₀.symm
    · exact h.null h₀

theorem free {S : ι → Prop} (h : Owns A used) (hin : ∀ x, S x → A' x = 0)
    (hout : ∀ x, ¬S x → A' x = A x) (hu : ∀ c, used' c ↔ used c ∧ ∀ x, S x → A x ≠ c) :
    Owns A' used' := by
  have hS : ∀ {x}, A' x ≠ 0 → ¬S x := fun {x} hx hSx ↦ hx (hin x hSx)
  refine ⟨?_, ?_, ?_, ?_⟩
  · intro x hx
    have hxS := hS hx
    rw [hout x hxS] at hx ⊢
    refine (hu _).mpr ⟨h.used_of x hx, fun y hy hyx ↦ hxS ?_⟩
    exact h.inj y x (hyx ▸ hx) hyx ▸ hy
  · intro x y hx hxy
    have hxS := hS hx
    have hyS := hS (hxy ▸ hx)
    rw [hout x hxS] at hx hxy
    rw [hout y hyS] at hxy
    exact h.inj x y hx hxy
  · intro c hc
    obtain ⟨hc, hne⟩ := (hu c).mp hc
    obtain ⟨x, rfl⟩ := h.owner c hc
    exact ⟨x, hout x fun hx ↦ hne x hx rfl⟩
  · exact fun h₀ ↦ h.null ((hu 0).mp h₀).1

end Owns

end OperatingSystems
