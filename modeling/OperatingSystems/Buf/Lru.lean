import OperatingSystems.Buf.Basic

/-!
# The list of buffers

The links of the buffers form one ring through the list head, so that the two loops of `bget` look
at every buffer once. From this follows what makes a block's buffer unique: `bget` gives a buffer a
new number only if no buffer has it. A reference count is the number of processes that are in
`bread` or `brelse` with the buffer or hold it, so that a buffer without references is not locked
either.
-/

namespace OperatingSystems

open Function

namespace Bcache

variable {π : Type} [Fintype π] {U : Dev → Prop} {s s' : Bcache π} {p : π} {i : Fin nbuf}
  {dev : Dev}
  {b : BlockNo} {l : List (Fin nbuf)}

/-- The processes in `bread` or `brelse` on a buffer, and its holder. -/
def users (s : Bcache π) (i : Fin nbuf) : ℕ :=
  (Finset.univ.filter fun p ↦ (s.pc p).buf = some i).card + if (s.lock i).isSome then 1 else 0

/-- What is true of the list, the numbers and the reference counts of the buffers. -/
structure Shape (U : Dev → Prop) (s : Bcache π) : Prop where
  ring : ∃ l : List (Fin nbuf), l.Nodup ∧ (∀ i, i ∈ l) ∧ s.links.Ring none (l.map some)
  unique : ∀ i j, (s.buf i).dev ≠ 0 → (s.buf i).key = (s.buf j).key → i = j
  dev : ∀ i, (s.buf i).dev = 0 ∨ U (s.buf i).dev
  count : ∀ i, (s.buf i).refcnt = s.users i
  wait : ∀ p i dev b, s.pc p = .wait i dev b → (s.buf i).key = (dev, b) ∧ U dev
  held : ∀ i p, s.lock i = some p → U (s.buf i).dev ∧ (s.buf i).valid = true
  dirty : ∀ i, (s.buf i).dirty = true → (s.buf i).valid = true

/-! ## The loops of `bget` -/

private theorem join_map_some {α : Type} (o : Option α) : (o.map some).join = o := by
  cases o with
  | none => rfl
  | some a => rfl

omit [Fintype π] in
theorem cached_eq (hl : l.length ≤ nbuf) (hr : s.links.Ring none (l.map some)) :
    (s.cached dev b).join
      = l.find? fun i ↦ decide ((s.buf i).dev = dev ∧ (s.buf i).blockno = b) := by
  rw [cached, hr.walk_next (by rw [List.length_map]; omega), List.find?_map, join_map_some]
  rfl

omit [Fintype π] in
theorem unusedBuf_eq (hl : l.length ≤ nbuf) (hr : s.links.Ring none (l.map some)) : s.unusedBuf.join
      = l.reverse.find? fun i ↦ decide ((s.buf i).refcnt = 0 ∧ (s.buf i).dirty = false) := by
  rw [unusedBuf, hr.walk_prev (by rw [List.length_map]; omega), ← List.map_reverse, List.find?_map,
    join_map_some]
  rfl

namespace Shape

theorem key_of_cached (h : s.Shape U) (hi : (s.cached dev b).join = some i) :
    (s.buf i).key = (dev, b) := by
  obtain ⟨l, hnd, -, hr⟩ := h.ring
  rw [cached_eq (hnd.length_le_card.trans_eq (Fintype.card_fin _)) hr] at hi
  have hkey := List.find?_some hi
  rw [decide_eq_true_iff] at hkey
  exact Prod.ext hkey.1 hkey.2

theorem key_ne_of_cached (h : s.Shape U) (hno : (s.cached dev b).join = none) (j : Fin nbuf) :
    (s.buf j).key ≠ (dev, b) := by
  obtain ⟨l, hnd, hall, hr⟩ := h.ring
  rw [cached_eq (hnd.length_le_card.trans_eq (Fintype.card_fin _)) hr, List.find?_eq_none] at hno
  intro hkey
  rw [Buf.key, Prod.mk.injEq] at hkey
  exact hno j (hall j) (decide_eq_true hkey)

theorem of_unusedBuf (h : s.Shape U) (hi : s.unusedBuf.join = some i) :
    (s.buf i).refcnt = 0 ∧ (s.buf i).dirty = false := by
  obtain ⟨l, hnd, -, hr⟩ := h.ring
  rw [unusedBuf_eq (hnd.length_le_card.trans_eq (Fintype.card_fin _)) hr] at hi
  have hun := List.find?_some hi
  rwa [decide_eq_true_iff] at hun

end Shape

/-! ## A step on one buffer -/

variable [DecidableEq π]

/-- A step of process `p` on buffer `i`: what is new of the buffer, its lock, the process and the
mark. -/
structure Edit (s s' : Bcache π) (p : π) (i : Fin nbuf) (c : Buf) (o : Option π) (k : BufPc)
    (t : Bool) :
    Prop where
  buf : s'.buf = update s.buf i c
  lock : s'.lock = update s.lock i o
  pc : s'.pc = update s.pc p k
  touched : s'.touched = update s.touched i t

/-- The references to buffer `i` of a process that is at `k`, and of a holder. -/
def uses (i : Fin nbuf) (k : BufPc) (o : Option π) : ℕ :=
  (if k.buf = some i then 1 else 0) + if o.isSome then 1 else 0

variable {c : Buf} {o : Option π} {k : BufPc} {t : Bool}

theorem Edit.users (he : s.Edit s' p i c o k t) :
    s'.users i + uses i (s.pc p) (s.lock i) = s.users i + uses i k o := by
  have hcard := card_filter_update_add (fun c : BufPc ↦ c.buf = some i) s.pc p k
  simp only [Bcache.users, uses, he.pc, he.lock, update_self]
  omega

theorem Edit.users_of_ne (he : s.Edit s' p i c o k t) {j : Fin nbuf} (hj : j ≠ i)
    (hold : ∀ j, (s.pc p).buf = some j → j = i) (hnew : ∀ j, k.buf = some j → j = i) :
    s'.users j = s.users j := by
  have hcard := card_filter_update_add (fun c : BufPc ↦ c.buf = some j) s.pc p k
  rw [if_neg fun h ↦ hj (hold j h), if_neg fun h ↦ hj (hnew j h)] at hcard
  simp only [Bcache.users, he.pc, he.lock, update_of_ne hj]
  omega

namespace Shape

omit [DecidableEq π] in
theorem unlocked_of_refcnt (h : s.Shape U) (hi : (s.buf i).refcnt = 0) : s.lock i = none := by
  rw [h.count, users] at hi
  by_contra hne
  rw [if_pos (Option.isSome_iff_ne_none.mpr hne)] at hi
  omega

omit [DecidableEq π] in
theorem pc_ne_of_refcnt (h : s.Shape U) (hi : (s.buf i).refcnt = 0) (q : π) :
    (s.pc q).buf ≠ some i := by
  rw [h.count, users] at hi
  exact not_of_card_filter_eq_zero (Q := fun c : BufPc ↦ c.buf = some i) (by omega) q

/-- A step keeps the shape if it accounts for its references, and the buffer keeps its number or
gets a new one while nobody uses it. -/
theorem edit (h : s.Shape U) (he : s.Edit s' p i c o k t)
    (hring : ∃ l : List (Fin nbuf), l.Nodup ∧ (∀ i, i ∈ l) ∧ s'.links.Ring none (l.map some))
    (hkey : c.key = (s.buf i).key ∨ (s.buf i).refcnt = 0 ∧ ∀ j, (s.buf j).key ≠ c.key)
    (hdev : c.dev = 0 ∨ U c.dev) (hold : ∀ j, (s.pc p).buf = some j → j = i)
    (hnew : ∀ j, k.buf = some j → j = i)
    (href : c.refcnt + uses i (s.pc p) (s.lock i) = (s.buf i).refcnt + uses i k o)
    (hwait : ∀ dev b, k = .wait i dev b → c.key = (dev, b) ∧ U dev)
    (hheld : o ≠ none → U c.dev ∧ c.valid = true) (hdirty : c.dirty = true → c.valid = true) :
    s'.Shape U := by
  refine ⟨hring, ?_, ?_, ?_, ?_, ?_, ?_⟩
  · intro j l hj hjl
    rw [he.buf] at hj hjl
    grind [h.unique, Buf.key]
  · intro j
    rw [he.buf]
    grind [h.dev]
  · intro j
    rw [he.buf]
    by_cases hj : j = i
    · have hu := he.users
      have hi := h.count i
      rw [hj, update_self]
      omega
    · rw [he.users_of_ne hj hold hnew, update_of_ne hj, h.count]
  · intro q j dev b hq
    rw [he.buf]
    rw [he.pc] at hq
    by_cases hqp : q = p
    · rw [hqp, update_self] at hq
      obtain rfl := hnew j (by rw [hq, BufPc.buf])
      rw [update_self]
      exact hwait dev b hq
    · -- if the buffer has lost its number, nobody was waiting for it
      rw [update_of_ne hqp] at hq
      have hpc : (s.pc q).buf = some j := by rw [hq, BufPc.buf]
      grind [h.wait q j dev b hq, h.pc_ne_of_refcnt]
  · intro j q hq
    rw [he.lock] at hq
    rw [he.buf]
    grind [h.held j q]
  · intro j
    rw [he.buf]
    grind [h.dirty j]

end Shape

end Bcache

end OperatingSystems
