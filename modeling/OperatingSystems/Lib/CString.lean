import Mathlib.Data.List.GetD
import Mathlib.Order.Nat
import Mathlib.Tactic.Common

/-!
# Strings in arrays

An array of `N` elements is the start of a memory, and a load or a store at an index from `N` on has
no result. A string in the array ends with the first zero; where there is no zero, looking for the
end reads behind the array.

`laid M rest s` is the memory with the string `s` and zeros up to `M`, and with `rest` from there
on. As long as `s` is shorter than `M` this is a string, and adding to it or cutting it off at its
end is one store. Once it is as long as `M`, the zero that ended it is gone, and what `rest` holds
is part of it.
-/

namespace OperatingSystems.CArray

open Function

variable {α : Type*} [OfNat α 0] {i : ℕ}

def load (N : ℕ) (b : ℕ → α) (i : ℕ) : Option α := if i < N then some (b i) else none

def store (N : ℕ) (b : ℕ → α) (i : ℕ) (c : α) : Option (ℕ → α) :=
  if i < N then some (update b i c) else none

def strlen [DecidableEq α] (N : ℕ) (b : ℕ → α) : Option ℕ :=
  (List.range N).find? fun i ↦ decide (b i = 0)

def text [DecidableEq α] (N : ℕ) (b : ℕ → α) : Option (List α) :=
  (strlen N b).map fun n ↦ (List.range n).map b

def clear (N : ℕ) (b : ℕ → α) : ℕ → α := fun i ↦ if i < N then 0 else b i

def strcpy (N : ℕ) (b : ℕ → α) (s : List α) : Option (ℕ → α) :=
  if s.length < N then some fun i ↦ if i ≤ s.length then s.getD i 0 else b i else none

/-- The index before `n`, which is outside of the array if `n` is 0. -/
def before : ℕ → Option ℕ
  | 0 => none
  | n + 1 => some n

/-- The string `s` and zeros up to `M`, and `rest` behind it. -/
def laid (M : ℕ) (rest : ℕ → α) (s : List α) : ℕ → α := fun i ↦ if i < M then s.getD i 0 else rest i

variable {N M : ℕ} {b rest : ℕ → α} {s : List α}

/-! ## Loads and stores -/

theorem laid_of_lt (h : i < M) : laid M rest s i = s.getD i 0 := if_pos h

theorem laid_of_le (h : M ≤ i) : laid M rest s i = rest i := if_neg (Nat.not_lt.2 h)

theorem laid_concat_of_ne (h : i ≠ s.length) (c : α) :
    laid M rest (s ++ [c]) i = laid M rest s i := by
  rw [laid, laid, List.getD_eq_getElem?_getD, List.getD_eq_getElem?_getD]
  rcases Nat.lt_or_gt_of_ne h with hlt | hgt
  · rw [List.getElem?_append_left hlt]
  · rw [List.getElem?_eq_none (Nat.le_of_lt hgt), List.getElem?_eq_none]
    rw [List.length_append, List.length_singleton]
    exact hgt

theorem load_laid (hM : M ≤ N) (hi : i < s.length) (hs : s.length < M) :
    load N (laid M rest s) i = some s[i] := by
  have hiM : i < M := hi.trans hs
  rw [load, if_pos (hiM.trans_le hM), laid_of_lt hiM, List.getD_eq_getElem _ _ hi]

theorem store_laid_length (hM : M ≤ N) (hs : s.length < M) (c : α) :
    store N (laid M rest s) s.length c = some (laid M rest (s ++ [c])) := by
  rw [store, if_pos (hs.trans_le hM), Option.some.injEq]
  funext i
  by_cases hi : i = s.length
  · subst hi
    rw [update_self, laid_of_lt hs, List.getD_eq_getElem?_getD, List.getElem?_concat_length,
      Option.getD_some]
  · rw [update_of_ne hi, laid_concat_of_ne hi]

theorem store_laid_last (hM : M ≤ N) (hs : s.length < M) (c : α) :
    store N (laid M rest (s ++ [c])) s.length 0 = some (laid M rest s) := by
  rw [store, if_pos (hs.trans_le hM), Option.some.injEq]
  funext i
  by_cases hi : i = s.length
  · subst hi
    rw [update_self, laid_of_lt hs, List.getD_eq_default _ _ (Nat.le_refl _)]
  · rw [update_of_ne hi, laid_concat_of_ne hi]

theorem strcpy_eq (hs : s.length < N) : strcpy N b s = some (laid (s.length + 1) b s) := by
  rw [strcpy, if_pos hs, Option.some.injEq]
  funext i
  rw [laid]
  simp only [Nat.lt_succ_iff]

theorem strcpy_clear (hs : s.length < N) : strcpy N (clear N b) s = some (laid N b s) := by
  rw [strcpy_eq hs, Option.some.injEq]
  funext i
  rcases Nat.lt_or_ge i (s.length + 1) with hlt | hge
  · rw [laid_of_lt hlt, laid_of_lt (hlt.trans_le hs)]
  · rw [laid_of_le hge, clear, laid, List.getD_eq_default _ _ (Nat.le_of_succ_le hge)]

/-! ## The end of a string -/

theorem laid_ne_zero (h₀ : (0 : α) ∉ s) (hi : i < s.length) (hM : i < M) : laid M rest s i ≠ 0 := by
  rw [laid_of_lt hM, List.getD_eq_getElem _ _ hi]
  intro h
  exact h₀ (h ▸ List.getElem_mem hi)

variable [DecidableEq α]

theorem strlen_eq_none (h : ∀ i < N, b i ≠ 0) : strlen N b = none := by
  rw [strlen, List.find?_eq_none]
  intro i hi
  simpa using h i (List.mem_range.1 hi)

theorem strlen_eq_some {n : ℕ} (hn : n < N) (h₀ : b n = 0) (h : ∀ i < n, b i ≠ 0) :
    strlen N b = some n := by
  rw [strlen, List.find?_range_eq_some]
  refine ⟨by simpa using h₀, List.mem_range.2 hn, fun i hi ↦ ?_⟩
  simpa using h i hi

theorem of_strlen_eq_some {n : ℕ} (h : strlen N b = some n) :
    n < N ∧ b n = 0 ∧ ∀ i < n, b i ≠ 0 := by
  obtain ⟨h₀, hlt, hne⟩ := List.find?_range_eq_some.1 h
  refine ⟨List.mem_range.1 hlt, by simpa using h₀, fun i hi ↦ ?_⟩
  simpa using hne i hi

theorem strlen_isSome (h : ∃ n < N, b n = 0) : (strlen N b).isSome := by
  obtain ⟨n, hn, h₀⟩ := h
  rw [strlen, List.find?_isSome]
  exact ⟨n, List.mem_range.2 hn, decide_eq_true h₀⟩

theorem strlen_laid (hM : M ≤ N) (h₀ : (0 : α) ∉ s) (hs : s.length < M) :
    strlen N (laid M rest s) = some s.length := by
  refine strlen_eq_some (hs.trans_le hM) ?_ fun i hi ↦ laid_ne_zero h₀ hi (hi.trans hs)
  rw [laid_of_lt hs, List.getD_eq_default _ _ (Nat.le_refl _)]

theorem strlen_laid_full (h₀ : (0 : α) ∉ s) (hs : M ≤ s.length)
    (hrest : ∀ i, M ≤ i → i < N → rest i ≠ 0) : strlen N (laid M rest s) = none := by
  refine strlen_eq_none fun i hi ↦ ?_
  rcases Nat.lt_or_ge i M with hM | hM
  · exact laid_ne_zero h₀ (hM.trans_le hs) hM
  · rw [laid_of_le hM]
    exact hrest i hM hi

theorem text_laid (hM : M ≤ N) (h₀ : (0 : α) ∉ s) (hs : s.length < M) :
    text N (laid M rest s) = some s := by
  rw [text, strlen_laid hM h₀ hs, Option.map_some, Option.some.injEq]
  refine List.ext_getElem (by rw [List.length_map, List.length_range]) fun i hi hi' ↦ ?_
  rw [List.getElem_map, List.getElem_range, laid_of_lt (hi'.trans hs), List.getD_eq_getElem _ _ hi']

theorem text_getD (h₀ : (0 : α) ∉ s) (hs : s.length < N) :
    text N (fun i ↦ s.getD i 0) = some s := by
  have hlaid : (fun i ↦ s.getD i 0) = laid N (fun i ↦ s.getD i 0) s := by
    funext i
    rw [laid, ite_self]
  rw [hlaid, text_laid (Nat.le_refl _) h₀ hs]

theorem of_text_eq_some (h : text N b = some s) :
    s.length < N ∧ (0 : α) ∉ s ∧ ∀ i < s.length, b i = s.getD i 0 := by
  obtain ⟨n, hn, rfl⟩ := Option.map_eq_some_iff.1 h
  obtain ⟨hlt, -, hne⟩ := of_strlen_eq_some hn
  rw [List.length_map, List.length_range]
  refine ⟨hlt, fun hmem ↦ ?_, fun i hi ↦ ?_⟩
  · obtain ⟨i, hi, h₀⟩ := List.mem_map.1 hmem
    exact hne i (List.mem_range.1 hi) h₀
  · rw [List.getD_eq_getElem _ _ (by rwa [List.length_map, List.length_range]), List.getElem_map,
      List.getElem_range]

end OperatingSystems.CArray
