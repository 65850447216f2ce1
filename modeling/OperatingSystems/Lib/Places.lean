import Mathlib.Algebra.Order.BigOperators.Group.Finset

/-!
# Counting what is in places

A conservation law is proved for a multiset: what is in the system, counted with multiplicity. It is
read off as a statement about places: each thing is in exactly one of them. `Placed c m` says that
the multiset `m` counts what the places hold, where `c` tells what is in a place. It is built up in
the way the multiset is, by sums, and in the end turned into unique existence.
-/

namespace OperatingSystems

variable {ι κ α : Type*}

/-- What is in the places is in the multiset, and a thing that is in two of them is there twice. -/
structure Placed (c : ι → Option α) (m : Multiset α) : Prop where
  mem_iff : ∀ {v}, v ∈ m ↔ ∃ x, c x = some v
  unique : m.Nodup → ∀ {x y v}, c x = some v → c y = some v → x = y

namespace Placed

theorem empty : Placed (fun _ : ι ↦ (none : Option α)) 0 :=
  ⟨fun {v} ↦ ⟨fun h ↦ absurd h (Multiset.notMem_zero v), fun ⟨_, h⟩ ↦ by cases h⟩,
    fun _ _ _ _ h _ ↦ by cases h⟩

theorem option (o : Option α) : Placed (fun _ : Unit ↦ o) (o.elim 0 fun v ↦ {v}) := by
  refine ⟨fun {v} ↦ ?_, fun _ _ _ _ _ _ ↦ rfl⟩
  cases o with
  | none => exact ⟨fun h ↦ absurd h (Multiset.notMem_zero v), fun ⟨_, h⟩ ↦ by cases h⟩
  | some w =>
    refine Multiset.mem_singleton.trans ⟨fun h ↦ ⟨(), congrArg some h.symm⟩, fun ⟨_, h⟩ ↦ ?_⟩
    exact (Option.some.inj h).symm

theorem single (v : α) : Placed (fun _ : Unit ↦ some v) {v} := option (some v)

theorem list (l : List α) : Placed (fun j : ℕ ↦ l[j]?) (l : Multiset α) := by
  refine ⟨Multiset.mem_coe.trans List.mem_iff_getElem?, fun hnodup x y v hx hy ↦ ?_⟩
  have hlt : x < l.length := (List.getElem?_eq_some_iff.mp hx).1
  exact (List.getElem?_inj hlt (Multiset.coe_nodup.mp hnodup)).mp (hx.trans hy.symm)

variable {c : ι → Option α} {m : Multiset α}

variable {d : κ → Option α}

theorem add {m' : Multiset α} (h : Placed c m) (h' : Placed d m') :
    Placed (Sum.elim c d) (m + m') := by
  refine ⟨fun {v} ↦ ?_, fun hnodup x y v hx hy ↦ ?_⟩
  · rw [Multiset.mem_add, h.mem_iff, h'.mem_iff, Sum.exists]
    rfl
  · obtain ⟨hm, hm', hdisj⟩ := Multiset.nodup_add.mp hnodup
    have hnot : ∀ {v i j}, c i = some v → d j = some v → False := fun hi hj ↦
      Multiset.disjoint_left.mp hdisj (h.mem_iff.mpr ⟨_, hi⟩) (h'.mem_iff.mpr ⟨_, hj⟩)
    rcases x with i | i <;> rcases y with j | j
    · exact congrArg Sum.inl (h.unique hm hx hy)
    · exact (hnot hx hy).elim
    · exact (hnot hy hx).elim
    · exact congrArg Sum.inr (h'.unique hm' hx hy)

theorem sum {s : Finset κ} {c : κ → ι → Option α} {m : κ → Multiset α}
    (h : ∀ i ∈ s, Placed (c i) (m i)) (hnone : ∀ i ∉ s, ∀ x, c i x = none) :
    Placed (fun x : κ × ι ↦ c x.1 x.2) (∑ i ∈ s, m i) := by
  classical
  have hs : ∀ {i x v}, c i x = some v → i ∈ s := by
    intro i x v hx
    by_contra hi
    rw [hnone i hi x] at hx
    cases hx
  refine ⟨fun {v} ↦ ?_, ?_⟩
  · rw [Multiset.mem_sum]
    constructor
    · rintro ⟨i, hi, hv⟩
      obtain ⟨x, hx⟩ := (h i hi).mem_iff.mp hv
      exact ⟨(i, x), hx⟩
    · rintro ⟨⟨i, x⟩, hx⟩
      exact ⟨i, hs hx, (h i (hs hx)).mem_iff.mpr ⟨x, hx⟩⟩
  · rintro hnodup ⟨i, x⟩ ⟨j, y⟩ v hx hy
    have hi := hs hx
    have hj := hs hy
    rw [← Finset.add_sum_erase s m hi] at hnodup
    obtain ⟨hm, -, hdisj⟩ := Multiset.nodup_add.mp hnodup
    -- otherwise it would be counted with `i` and with the rest
    obtain rfl : j = i := by
      by_contra hne
      refine Multiset.disjoint_left.mp hdisj ((h i hi).mem_iff.mpr ⟨x, hx⟩) ?_
      exact Multiset.mem_sum.mpr ⟨j, Finset.mem_erase.mpr ⟨hne, hj⟩, (h j hj).mem_iff.mpr ⟨y, hy⟩⟩
    exact Prod.ext rfl ((h j hj).unique hm hx hy)

theorem rename (h : Placed c m) (f : ι → κ) (hf : ∀ x, d (f x) = c x)
    (hsurj : ∀ y v, d y = some v → ∃ x, f x = y) : Placed d m := by
  refine ⟨fun {v} ↦ ?_, fun hnodup y y' v hy hy' ↦ ?_⟩
  · rw [h.mem_iff]
    constructor
    · rintro ⟨x, hx⟩
      exact ⟨f x, (hf x).trans hx⟩
    · rintro ⟨y, hy⟩
      obtain ⟨x, rfl⟩ := hsurj y v hy
      exact ⟨x, (hf x).symm.trans hy⟩
  · obtain ⟨x, rfl⟩ := hsurj y v hy
    obtain ⟨x', rfl⟩ := hsurj y' v hy'
    rw [hf] at hy hy'
    rw [h.unique hnodup hy hy']

theorem existsUnique (h : Placed c m) (hm : m.Nodup) {v : α} (hv : v ∈ m) :
    ∃! x, c x = some v := by
  obtain ⟨x, hx⟩ := h.mem_iff.mp hv
  exact ⟨x, hx, fun y hy ↦ h.unique hm hy hx⟩

end Placed

end OperatingSystems
