import Mathlib.Data.List.Chain

/-!
# Circular doubly linked lists

Links are two functions on nodes, `next` and `prev`. They form a ring with head `h` and members `l`
if going along `next` from the head leads through the members in order and back to the head, and
`prev` leads the same way back. Nothing is said about the links of other nodes.

The operations are the usual ones on pointers: a node is unlinked by joining its neighbours, and
pushed to the front by four assignments. A loop over the ring stops when it is back at the head.
-/

namespace OperatingSystems

open Function

structure Links (ν : Type*) where
  next : ν → ν
  prev : ν → ν

namespace Links

variable {ν : Type*} {L : Links ν} {h a b : ν} {l : List ν}

/-- Going from `a` to `b` and back. -/
def Joins (L : Links ν) (a b : ν) : Prop := L.next a = b ∧ L.prev b = a

/-- The links form one ring through the head `h` and the members `l`. -/
structure Ring (L : Links ν) (h : ν) (l : List ν) : Prop where
  chain : (h :: l ++ [h]).IsChain L.Joins
  nodup : (h :: l).Nodup

private theorem exists_head (l : List ν) (h : ν) : ∃ x, (l ++ [h]).head? = some x := by
  cases l with
  | nil => exact ⟨h, rfl⟩
  | cons a l => exact ⟨a, rfl⟩

section Operations

variable [DecidableEq ν] {l₁ l₂ : List ν} {fuel : ℕ}

/-- `b->next->prev = b->prev; b->prev->next = b->next;` -/
@[simps] def unlink (L : Links ν) (b : ν) : Links ν where
  next := update L.next (L.prev b) (L.next b)
  prev := update L.prev (L.next b) (L.prev b)

/-- `b->next = h->next; b->prev = h; h->next->prev = b; h->next = b;` -/
@[simps] def pushFront (L : Links ν) (h b : ν) : Links ν where
  next := update (update L.next b (L.next h)) h b
  prev := update (update L.prev b h) (L.next h) b

theorem Joins.unlink {x y : ν} (hxy : L.Joins x y) (hx : x ≠ b) (hy : y ≠ b)
    (hpb : L.next (L.prev b) = b) (hbn : L.prev (L.next b) = b) : (L.unlink b).Joins x y := by
  constructor
  · have hne : x ≠ L.prev b := by
      rintro rfl
      exact hy (hxy.1.symm.trans hpb)
    rw [unlink_next, update_of_ne hne, hxy.1]
  · have hne : y ≠ L.next b := by
      rintro rfl
      exact hx (hxy.2.symm.trans hbn)
    rw [unlink_prev, update_of_ne hne, hxy.2]

theorem joins_unlink : (L.unlink b).Joins (L.prev b) (L.next b) :=
  ⟨update_self .., update_self ..⟩

omit [DecidableEq ν] in
theorem Ring.notMem_rest (hr : L.Ring h (l₁ ++ b :: l₂)) : b ∉ h :: (l₁ ++ l₂) := by
  have hperm : (h :: (l₁ ++ b :: l₂)).Perm (b :: h :: (l₁ ++ l₂)) :=
    (List.perm_middle.cons h).trans (List.Perm.swap b h _)
  exact (List.nodup_cons.mp (hperm.nodup_iff.mp hr.nodup)).1

theorem Ring.unlink (hr : L.Ring h (l₁ ++ b :: l₂)) : (L.unlink b).Ring h (l₁ ++ l₂) := by
  have hsub : (l₁ ++ l₂).Sublist (l₁ ++ b :: l₂) :=
    List.Sublist.append_left (List.sublist_cons_self b l₂) l₁
  have hb := hr.notMem_rest
  -- cut the chain in front of and behind `b`
  have hchain : ((h :: l₁) ++ (b :: (l₂ ++ [h]))).IsChain L.Joins := by
    simpa using hr.chain
  obtain ⟨hc₁, hc₂, hlast⟩ := List.isChain_append.mp hchain
  obtain ⟨hfirst, hc₃⟩ := List.isChain_cons.mp hc₂
  obtain ⟨p, hp⟩ : ∃ p, (h :: l₁).getLast? = some p :=
    ⟨_, List.getLast?_eq_some_getLast (List.cons_ne_nil h l₁)⟩
  obtain ⟨x, hx⟩ := exists_head l₂ h
  have hpb := hlast p hp b rfl
  have hbx := hfirst x hx
  have hnext : L.next (L.prev b) = b := by rw [hpb.2, hpb.1]
  have hprev : L.prev (L.next b) = b := by rw [hbx.1, hbx.2]
  have hkeep : ∀ {m : List ν}, b ∉ m → m.IsChain L.Joins → m.IsChain (L.unlink b).Joins := by
    intro m hm hc
    refine hc.imp_of_mem_imp fun y z hy hz hyz ↦ ?_
    exact hyz.unlink (ne_of_mem_of_not_mem hy hm) (ne_of_mem_of_not_mem hz hm) hnext hprev
  refine ⟨?_, hr.nodup.sublist (hsub.cons_cons h)⟩
  rw [← List.cons_append, List.append_assoc]
  refine List.isChain_append.mpr ⟨hkeep ?_ hc₁, hkeep ?_ hc₃, fun p' hp' x' hx' ↦ ?_⟩
  · exact fun hmem ↦ hb (by simp only [List.mem_cons, List.mem_append] at hmem ⊢; tauto)
  · exact fun hmem ↦ hb (by simp only [List.mem_cons, List.mem_append] at hmem ⊢; tauto)
  · obtain rfl : p = p' := Option.some.inj (hp.symm.trans hp')
    obtain rfl : x = x' := Option.some.inj (hx.symm.trans hx')
    have hj := joins_unlink (L := L) (b := b)
    rwa [hpb.2, hbx.1] at hj

theorem Ring.pushFront (hr : L.Ring h l) (hb : b ∉ h :: l) : (L.pushFront h b).Ring h (b :: l) := by
  obtain ⟨hbh, hbl⟩ : b ≠ h ∧ b ∉ l := by simpa using hb
  obtain ⟨hhl, hnd⟩ := List.nodup_cons.mp hr.nodup
  obtain ⟨hfirst, hc⟩ := List.isChain_cons.mp hr.chain
  obtain ⟨x, hx⟩ := exists_head l h
  have hhx := hfirst x hx
  have hmem : b ∉ l ++ [h] := by simp [hbh, hbl]
  have hxb : b ≠ x := by
    rintro rfl
    exact hmem (List.mem_of_mem_head? hx)
  refine ⟨?_, ?_⟩
  · refine List.isChain_cons.mpr ⟨?_, List.isChain_cons.mpr ⟨?_, ?_⟩⟩
    · rintro y hy
      obtain rfl : b = y := Option.some.inj hy
      constructor
      · rw [pushFront_next, update_self]
      · rw [pushFront_prev, hhx.1, update_of_ne hxb, update_self]
    · rintro y hy
      obtain rfl : x = y := Option.some.inj (hx.symm.trans hy)
      constructor
      · rw [pushFront_next, update_of_ne hbh, update_self, hhx.1]
      · rw [pushFront_prev, hhx.1, update_self]
    · -- a join inside of the old members does not start at the head, so it does not end in `x`
      have hkeep : ∀ {y z}, y ∈ l → z ∈ l ++ [h] → L.Joins y z → (L.pushFront h b).Joins y z := by
        intro y z hy hz hyz
        have hyh : y ≠ h := ne_of_mem_of_not_mem hy hhl
        have hzx : z ≠ x := by
          rintro rfl
          exact hyh (hyz.2.symm.trans hhx.2)
        constructor
        · rw [pushFront_next, update_of_ne hyh,
            update_of_ne (ne_of_mem_of_not_mem hy hbl), hyz.1]
        · rw [pushFront_prev, hhx.1, update_of_ne hzx,
            update_of_ne (ne_of_mem_of_not_mem hz hmem), hyz.2]
      obtain ⟨hcl, -, hlast⟩ := List.isChain_append.mp hc
      refine List.isChain_append.mpr ⟨?_, List.isChain_singleton h, fun y hy z hz ↦ ?_⟩
      · exact hcl.imp_of_mem_imp fun y z hy hz hyz ↦ hkeep hy (List.mem_append_left _ hz) hyz
      · refine hkeep (List.mem_of_mem_getLast? hy) ?_ (hlast y hy z hz)
        exact List.mem_append_right _ (List.mem_of_mem_head? hz)
  · exact List.nodup_cons.mpr ⟨by simp [hbh.symm, hhl], List.nodup_cons.mpr ⟨hbl, hnd⟩⟩

theorem Ring.moveFront (hr : L.Ring h (l₁ ++ b :: l₂)) :
    ((L.unlink b).pushFront h b).Ring h (b :: (l₁ ++ l₂)) :=
  hr.unlink.pushFront hr.notMem_rest

/-! ## Loops over the ring -/

/-- `for(a = ...; a != h; a = f(a)) if(q(a)) return a;`, for at most `fuel` rounds. -/
def walk (f : ν → ν) (h : ν) (q : ν → Bool) : ℕ → ν → Option ν
  | 0, _ => none
  | fuel + 1, a => if a = h then none else if q a then some a else walk f h q fuel (f a)

theorem walk_eq_find {f : ν → ν} {q : ν → Bool} (hf : l.length < fuel) (hh : h ∉ l)
    (hc : (l ++ [h]).IsChain fun a b ↦ f a = b) (ha : (l ++ [h]).head? = some a) :
    walk f h q fuel a = l.find? q := by
  induction l generalizing fuel a with
  | nil =>
    obtain rfl : h = a := Option.some.inj ha
    obtain ⟨fuel, rfl⟩ := Nat.exists_eq_succ_of_ne_zero hf.ne'
    rw [walk, if_pos rfl, List.find?_nil]
  | cons b l ih =>
    obtain rfl : b = a := Option.some.inj ha
    obtain ⟨hbh, hl⟩ : h ≠ b ∧ h ∉ l := by simpa using hh
    obtain ⟨fuel, rfl⟩ := Nat.exists_eq_succ_of_ne_zero (Nat.ne_zero_of_lt hf)
    obtain ⟨hnext, hc⟩ := List.isChain_cons.mp hc
    rw [walk, if_neg hbh.symm, List.find?_cons]
    by_cases hq : q b
    · rw [if_pos hq, hq]
    · obtain ⟨x, hx⟩ := exists_head l h
      rw [if_neg hq, Bool.eq_false_iff.mpr hq, hnext x hx]
      exact ih (Nat.lt_of_succ_lt_succ hf) hl hc hx

theorem Ring.walk_next (hr : L.Ring h l) (hf : l.length < fuel) (q : ν → Bool) :
    walk L.next h q fuel (L.next h) = l.find? q := by
  obtain ⟨hhl, -⟩ := List.nodup_cons.mp hr.nodup
  obtain ⟨hfirst, hc⟩ := List.isChain_cons.mp hr.chain
  obtain ⟨x, hx⟩ := exists_head l h
  rw [(hfirst x hx).1]
  exact walk_eq_find hf hhl (hc.imp fun _ _ hab ↦ hab.1) hx

theorem Ring.walk_prev (hr : L.Ring h l) (hf : l.length < fuel) (q : ν → Bool) :
    walk L.prev h q fuel (L.prev h) = l.reverse.find? q := by
  obtain ⟨hhl, -⟩ := List.nodup_cons.mp hr.nodup
  have hc : (h :: (l.reverse ++ [h])).IsChain fun a b ↦ L.prev a = b := by
    have hrev := (List.isChain_reverse (R := fun a b ↦ L.prev a = b)).mpr
      (hr.chain.imp fun _ _ hab ↦ hab.2)
    simpa using hrev
  obtain ⟨hfirst, hc⟩ := List.isChain_cons.mp hc
  obtain ⟨x, hx⟩ := exists_head l.reverse h
  rw [hfirst x hx]
  exact walk_eq_find (by simpa using hf) (by simpa using hhl) hc hx

end Operations

end Links

end OperatingSystems
