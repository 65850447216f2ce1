import Mathlib.Data.List.Basic

/-!
# Tables of slots

A table is a list of slots, each of which is free or holds a value. Values are put into the first
free slot, and only a table without one grows; a value is taken out by freeing its slot, which moves
no other value. What matters about a table is which values it holds and how often, so every
operation comes with its effect on membership and on counts.
-/

namespace OperatingSystems

namespace Slots

variable {α : Type*} {p : α → Bool} {a b : α} {i : ℕ} {l : List (Option α)}

/-- The first value that satisfies `p`, with the number of its slot. -/
def find (p : α → Bool) : List (Option α) → Option (ℕ × α)
  | [] => none
  | none :: l => (find p l).map fun x ↦ (x.1 + 1, x.2)
  | some a :: l => if p a then some (0, a) else (find p l).map fun x ↦ (x.1 + 1, x.2)

/-- Put a value into the first free slot, or into a new one at the end. -/
def fill (a : α) : List (Option α) → List (Option α)
  | [] => [some a]
  | none :: l => some a :: l
  | some b :: l => some b :: fill a l

/-- How many of the values satisfy `p`. -/
def count (p : α → Bool) (l : List (Option α)) : ℕ := l.countP fun o ↦ o.any p

@[simp] theorem count_nil : count p [] = 0 := rfl

@[simp] theorem count_cons_none : count p (none :: l) = count p l := by
  rw [count, List.countP_cons]
  rfl

@[simp] theorem count_cons_some :
    count p (some a :: l) = count p l + if p a then 1 else 0 := by
  rw [count, List.countP_cons]
  rfl

/-! ## Searching -/

private theorem getElem?_of_map_succ {q : ℕ × α} (o : Option α)
    (h : ∀ x, find p l = some x → l[x.1]? = some (some x.2) ∧ p x.2 = true)
    (hq : (find p l).map (fun x ↦ (x.1 + 1, x.2)) = some q) :
    (o :: l)[q.1]? = some (some q.2) ∧ p q.2 = true := by
  obtain ⟨x, hx, rfl⟩ := Option.map_eq_some_iff.mp hq
  rw [List.getElem?_cons_succ]
  exact h x hx

private theorem find_spec (x : ℕ × α) (h : find p l = some x) :
    l[x.1]? = some (some x.2) ∧ p x.2 = true := by
  induction l generalizing x with
  | nil => cases h
  | cons o l ih =>
    cases o with
    | none => exact getElem?_of_map_succ none ih h
    | some b =>
      rw [find] at h
      by_cases hb : p b
      · rw [if_pos hb, Option.some.injEq] at h
        subst h
        exact ⟨rfl, hb⟩
      · rw [if_neg hb] at h
        exact getElem?_of_map_succ (some b) ih h

theorem getElem?_of_find (h : find p l = some (i, a)) : l[i]? = some (some a) :=
  (find_spec _ h).1

theorem of_find (h : find p l = some (i, a)) : p a = true := (find_spec _ h).2

theorem not_of_find_eq_none (h : find p l = none) (ha : some a ∈ l) : p a = false := by
  induction l with
  | nil => cases ha
  | cons o l ih =>
    cases o with
    | none =>
      rw [find, Option.map_eq_none_iff] at h
      exact ih h (by simpa using ha)
    | some b =>
      rw [find] at h
      by_cases hb : p b
      · rw [if_pos hb] at h
        cases h
      · rw [if_neg hb, Option.map_eq_none_iff] at h
        rcases List.mem_cons.mp ha with hab | ha
        · rw [Option.some.injEq] at hab
          exact hab ▸ Bool.eq_false_iff.mpr hb
        · exact ih h ha

/-! ## Filling a slot -/

theorem mem_fill : some b ∈ fill a l ↔ b = a ∨ some b ∈ l := by
  induction l with
  | nil => simp [fill]
  | cons o l ih =>
    cases o with
    | none => simp [fill]
    | some c =>
      rw [fill, List.mem_cons, List.mem_cons, ih]
      exact or_left_comm

theorem count_fill : count p (fill a l) = count p l + if p a then 1 else 0 := by
  induction l with
  | nil => simp [fill]
  | cons o l ih =>
    cases o with
    | none => simp [fill]
    | some c =>
      rw [fill, count_cons_some, count_cons_some, ih]
      omega

theorem length_fill_of_mem (h : none ∈ l) : (fill a l).length = l.length := by
  induction l with
  | nil => cases h
  | cons o l ih =>
    cases o with
    | none => rfl
    | some c => exact congrArg (· + 1) (ih (by simpa using h))

theorem length_fill_of_notMem (h : none ∉ l) : (fill a l).length = l.length + 1 := by
  induction l with
  | nil => rfl
  | cons o l ih =>
    cases o with
    | none => exact absurd List.mem_cons_self h
    | some c => exact congrArg (· + 1) (ih fun hl ↦ h (List.mem_cons_of_mem _ hl))

/-! ## Freeing a slot -/

theorem mem_of_mem_clear (h : some b ∈ l.set i none) : some b ∈ l := by
  rcases List.mem_or_eq_of_mem_set h with h | h
  · exact h
  · cases h

theorem count_clear (h : l[i]? = some (some a)) :
    count p (l.set i none) + (if p a then 1 else 0) = count p l := by
  induction l generalizing i with
  | nil => cases h
  | cons o l ih =>
    cases i with
    | zero =>
      rw [List.getElem?_cons_zero, Option.some.injEq] at h
      subst h
      rw [List.set_cons_zero, count_cons_none, count_cons_some]
    | succ i =>
      rw [List.getElem?_cons_succ] at h
      have hrest := ih h
      cases o with
      | none => simpa using hrest
      | some c =>
        rw [List.set_cons_succ, count_cons_some, count_cons_some]
        omega

/-! ## Counting -/

theorem count_pos_iff : 0 < count p l ↔ ∃ a, some a ∈ l ∧ p a = true := by
  rw [count, List.countP_pos_iff]
  constructor
  · rintro ⟨o, ho, hp⟩
    cases o with
    | none => cases hp
    | some a => exact ⟨a, ho, hp⟩
  · rintro ⟨a, ha, hp⟩
    exact ⟨some a, ha, hp⟩

theorem count_eq_zero_iff : count p l = 0 ↔ ∀ a, some a ∈ l → p a = false := by
  constructor
  · intro h a ha
    by_contra hp
    rw [Bool.not_eq_false] at hp
    exact Nat.ne_of_gt (count_pos_iff.mpr ⟨a, ha, hp⟩) h
  · intro h
    by_contra hc
    obtain ⟨a, ha, hp⟩ := count_pos_iff.mp (Nat.pos_of_ne_zero hc)
    exact Bool.false_ne_true ((h a ha).symm.trans hp)

theorem count_le_length : count p l ≤ l.length := List.countP_le_length

end Slots

end OperatingSystems
