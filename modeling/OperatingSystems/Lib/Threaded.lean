import Mathlib.Data.List.Basic

/-!
# Lists threaded through a store

A singly linked list whose links live in the store it manages is a head together with a function
`next` that reads the link out of a cell. `Threaded next null head l` says that following `next`
from `head` visits exactly the cells of `l` and then reaches `null`.

The list is determined by the head and the links, so a step of a program that changes neither the
head nor the links of the cells on the list leaves the list alone, and pushing or popping a cell at
the head is a `cons`.
-/

namespace OperatingSystems

variable {α : Type*}

/-- Following `next` from a head visits exactly the listed cells, and then `null`. -/
def Threaded (next : α → α) (null : α) : α → List α → Prop
  | head, [] => head = null
  | head, p :: l => head = p ∧ p ≠ null ∧ Threaded next null (next p) l

namespace Threaded

variable {next next' : α → α} {null head p : α} {l l' : List α}

theorem tail (h : Threaded next null head (p :: l)) : Threaded next null (next p) l := h.2.2

theorem head_eq (h : Threaded next null head (p :: l)) : head = p := h.1

theorem eq_nil_iff (h : Threaded next null head l) : l = [] ↔ head = null := by
  cases l with
  | nil => exact ⟨fun _ ↦ h, fun _ ↦ rfl⟩
  | cons p l => exact ⟨nofun, fun hhead ↦ absurd (h.1.symm.trans hhead) h.2.1⟩

theorem congr (h : Threaded next null head l) (hnext : ∀ q ∈ l, next' q = next q) :
    Threaded next' null head l := by
  induction l generalizing head with
  | nil => exact h
  | cons p l ih =>
    refine ⟨h.1, h.2.1, ?_⟩
    rw [hnext p List.mem_cons_self]
    exact ih h.2.2 fun q hq ↦ hnext q (List.mem_cons_of_mem _ hq)

theorem unique (h : Threaded next null head l) (h' : Threaded next null head l') : l = l' := by
  induction l generalizing head l' with
  | nil => exact (h'.eq_nil_iff.mpr h).symm
  | cons p l ih =>
    cases l' with
    | nil => exact absurd (h.1.symm.trans h') h.2.1
    | cons q l' =>
      obtain rfl : p = q := h.1.symm.trans h'.1
      rw [ih h.2.2 h'.2.2]

theorem concat {q : α} (h : Threaded next null head (l ++ [q])) (hp : p ≠ null)
    (hl : ∀ x ∈ l, next' x = next x) (hq : next' q = p) (hnull : next' p = null) :
    Threaded next' null head (l ++ [q] ++ [p]) := by
  induction l generalizing head with
  | nil => exact ⟨h.1, h.2.1, hq, hp, hnull⟩
  | cons x l ih =>
    refine ⟨h.1, h.2.1, ?_⟩
    rw [hl x List.mem_cons_self]
    exact ih h.2.2 fun y hy ↦ hl y (List.mem_cons_of_mem _ hy)

end Threaded

/-! ## Links that are pointers or null -/

variable {β : Type*} {qnext : β → Option β} {head : Option β} {l : List β}

def follow (qnext : β → Option β) (o : Option β) : Option β := o.bind qnext

/-- `for(pp = &head; *pp; pp = &(*pp)->qnext) ;`, for at most `fuel` rounds. The result is the cell
that `pp` points into, or none for the head itself. -/
def lastLink (qnext : β → Option β) : ℕ → Option β → Option β → Option (Option β)
  | 0, _, _ => none
  | _ + 1, none, pp => some pp
  | fuel + 1, some b, _ => lastLink qnext fuel (qnext b) (some b)

theorem lastLink_eq {fuel : ℕ} {pp : Option β}
    (h : Threaded (follow qnext) none head (l.map some)) (hf : l.length < fuel) :
    lastLink qnext fuel head pp = some (l.getLast?.or pp) := by
  induction l generalizing fuel head pp with
  | nil =>
    obtain ⟨fuel, rfl⟩ := Nat.exists_eq_succ_of_ne_zero (Nat.ne_zero_of_lt hf)
    obtain rfl : head = none := h
    rfl
  | cons b l ih =>
    obtain ⟨fuel, rfl⟩ := Nat.exists_eq_succ_of_ne_zero (Nat.ne_zero_of_lt hf)
    obtain rfl : head = some b := h.1
    have htail : Threaded (follow qnext) none (qnext b) (l.map some) := h.2.2
    rw [lastLink, ih htail (Nat.lt_of_succ_lt_succ hf)]
    cases l with
    | nil => rfl
    | cons c l =>
      rw [List.getLast?_cons_cons, List.getLast?_eq_some_getLast (List.cons_ne_nil c l)]
      rfl

end OperatingSystems
