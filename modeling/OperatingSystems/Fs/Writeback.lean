import OperatingSystems.Fs.Coherence

/-!
# Writing inodes through to the disk

The holder of an inode's lock works on its cached fields and on the disk. `Rewrites` says what such
work does: the disk stays consistent, and the fields it leaves in the cache are those it leaves on
disk. `bmap` does not write the fields back, so that for `readi` and `writei` this is only true of
inodes all of whose blocks below their size are allocated.

Two results about whole runs follow. The places of the disk own its marked blocks, and the cache
agrees with the disk. The second needs that nothing is written behind the back of an entry that is
not in use: `iput` leaves such entries valid, and `iget` does not look at them.
-/

namespace OperatingSystems

open Function

namespace Icache

variable {n : ℕ} {π : Type} [Fintype π] {L : Layout} {D F : Prop} {s s' : Icache n π} {p : π}
  {e : CacheSlot} [DecidableEq π] {i : Fin n} {r : FsDisk n × Dinode} {dev : Dev} {c : IcachePc n}

/-! ## Work of the holder of a lock -/

/-- What the functions for the content of inode `i` do to a disk, with the fields they leave in the
cache. -/
structure Rewrites (L : Layout) (D : Prop) (d : FsDisk n) (i : Fin n) (r : FsDisk n × Dinode) :
    Prop where
  owned : r.1.Owned L
  dinode : r.1.dinode = update d.dinode i r.2
  keeps : ∀ j ≠ i, ∀ q, d.stored (j, q) ≠ 0 → r.1.stored (j, q) = d.stored (j, q)
  dense : D → r.2.type ≠ 0 → r.1.Dense i

omit [Fintype π] [DecidableEq π] in
theorem Rewrites.dense_of_ne {d : FsDisk n} {j : Fin n} (hr : Rewrites L D d i r) (hj : j ≠ i)
    (h : d.Dense j) : r.1.Dense j := by
  intro bn hbn
  rw [hr.dinode, update_of_ne hj] at hbn
  have hd := h bn hbn
  rw [FsDisk.blockAt] at hd ⊢
  cases hq : Pointer.ofBlock bn with
  | none => rw [hq] at hd; exact absurd rfl hd
  | some q =>
    rw [hq, Option.elim_some] at hd
    rw [Option.elim_some, hr.keeps j hj q hd]
    exact hd

omit [Fintype π] [DecidableEq π] in
theorem dinode_update (hr : Rewrites L D (s.disk dev) i r) (dev' : Dev) (j : Fin n) :
    (update s.disk dev r.1 dev').dinode j
      = if (dev', j) = (dev, i) then r.2 else (s.disk dev').dinode j := by
  by_cases hdev : dev' = dev
  · subst hdev
    rw [update_self, hr.dinode, update_apply]
    simp only [Prod.mk.injEq, true_and]
  · rw [update_of_ne hdev, if_neg fun heq ↦ hdev (congrArg Prod.fst heq)]

omit [Fintype π] [DecidableEq π] in
theorem dense_update (hr : Rewrites L D (s.disk dev) i r) (hD : D)
    (h : ∀ dev i, ((s.disk dev).dinode i).type ≠ 0 → (s.disk dev).Dense i) (dev' : Dev) (j : Fin n)
    (ht : ((update s.disk dev r.1 dev').dinode j).type ≠ 0) :
    (update s.disk dev r.1 dev').Dense j := by
  rw [dinode_update hr] at ht
  by_cases hdev : dev' = dev
  · subst hdev
    rw [update_self]
    by_cases hj : j = i
    · subst hj
      rw [if_pos rfl] at ht
      exact hr.dense hD ht
    · rw [if_neg fun heq ↦ hj (congrArg Prod.snd heq)] at ht
      exact hr.dense_of_ne hj (h dev' j ht)
  · rw [if_neg fun heq ↦ hdev (congrArg Prod.fst heq)] at ht
    rw [update_of_ne hdev]
    exact h dev' j ht

omit [Fintype π] [DecidableEq π] in
theorem owned_update (hr : Rewrites L D (s.disk dev) i r) (h : ∀ dev, (s.disk dev).Owned L)
    (dev' : Dev) : (update s.disk dev r.1 dev').Owned L := by
  by_cases hdev : dev' = dev
  · rw [hdev, update_self]
    exact hr.owned
  · rw [update_of_ne hdev]
    exact h dev'

omit [DecidableEq π] in
theorem Inv.store (h : s.Inv L D F) (hlive : 0 < (s.inode e).ref)
    (hr : Rewrites L D (s.diskOf e) (s.inode e).inum r)
    (htype : r.2.type ≠ 0 ∨ ∃ p, s.pc p = .freed e)
    (hfresh : F → ∀ e' ≠ e, (s.inode e').ref = 0 → (s.inode e').valid = true →
      (s.inode e').key = (s.inode e).key → r.2 = s.dinodeOf e) : (s.store e r).Inv L D F := by
  have hself : (s.store e r).inode e = { s.inode e with fields := r.2 } := update_self ..
  have hin : ∀ e' ≠ e, (s.store e r).inode e' = s.inode e' := fun e' he' ↦
    update_of_ne he' ..
  have hsame : ∀ e', ∃ f, (s.store e r).inode e' = { s.inode e' with fields := f } := fun e' ↦ by
    by_cases he' : e' = e
    · subst he'
      exact ⟨_, hself⟩
    · exact ⟨_, hin e' he'⟩
  have hdinode : ∀ e', (s.store e r).dinodeOf e'
      = if (s.inode e').key = (s.inode e).key then r.2 else s.dinodeOf e' := by
    intro e'
    obtain ⟨f, hf⟩ := hsame e'
    rw [dinodeOf, diskOf, hf]
    exact dinode_update hr _ _
  obtain ⟨hcount, hunique⟩ := h.same (show (s.store e r).refs = s.refs from rfl) fun e' ↦ by
    obtain ⟨f, hf⟩ := hsame e'
    rw [hf]
    exact ⟨rfl, rfl⟩
  refine ⟨hcount, hunique, ⟨h.locks.held, h.locks.holds, h.locks.drops, fun e' q hq ↦ ?_⟩,
    fun e' hlive' hv hno ↦ ?_, owned_update hr h.owned, fun hD ↦ dense_update hr hD (h.dense hD)⟩
  · obtain ⟨f, hf⟩ := hsame e'
    rw [hf]
    exact h.locks.loaded e' q hq
  · rw [hdinode]
    by_cases hee : e' = e
    · subst hee
      rw [if_pos rfl, hself]
      refine ⟨rfl, htype.resolve_right ?_⟩
      rintro ⟨p, hp⟩
      exact hno p hp
    · rw [hin e' hee] at hlive' hv ⊢
      have hold := h.coherent e' hlive' hv hno
      by_cases hkey : (s.inode e').key = (s.inode e).key
      · -- another entry with this key is not in use
        have hdead : (s.inode e').ref = 0 := by
          by_contra hne
          exact hee (h.unique e' e (Nat.pos_of_ne_zero hne) hlive hkey)
        have hF : F := hlive'.resolve_left (by omega)
        have hsame : s.dinodeOf e' = s.dinodeOf e := by
          rw [CachedInode.key, CachedInode.key, Prod.mk.injEq] at hkey
          rw [dinodeOf, dinodeOf, diskOf, diskOf, hkey.1, hkey.2]
        rw [if_pos hkey, hfresh hF e' hee hdead hv hkey, ← hsame]
        exact hold
      · rw [if_neg hkey]
        exact hold

section Rewrites

variable {d : FsDisk n} {i : Fin n} {ip : Dinode}

omit [Fintype π] [DecidableEq π]

theorem rewrites_self (h : d.Owned L) (hd : D → (d.dinode i).type ≠ 0 → d.Dense i) :
    Rewrites L D d i (d, d.dinode i) :=
  ⟨h, (update_eq_self ..).symm, fun _ _ _ _ ↦ rfl, hd⟩

theorem rewrites_iupdate (h : d.Owned L) (hst : (d.iupdate i ip).stored = d.stored)
    (hd : D → ip.type ≠ 0 → (d.iupdate i ip).Dense i) :
    Rewrites L D d i (d.iupdate i ip, ip) :=
  ⟨h.congr hst rfl, rfl, fun _ _ _ _ ↦ by rw [hst], hd⟩

theorem pointer_of_type {data : Disk} (h : ip.type = 0) (q : Pointer) : ip.pointer data q = 0 := by
  cases q with
  | direct k => rw [Dinode.pointer, if_pos h]
  | indirect j => rw [Dinode.pointer, if_pos (.inl h)]

theorem stored_iupdate_of_zero (hold : ∀ q, d.stored (i, q) = 0)
    (hnew : ∀ q, ip.pointer d.data q = 0) : (d.iupdate i ip).stored = d.stored := by
  funext ⟨j, q⟩
  by_cases hj : j = i
  · rw [hj, FsDisk.stored_iupdate_self, hnew, hold]
  · rw [FsDisk.stored_iupdate_of_ne hj]

theorem dense_of_size (h : (d.dinode i).size = 0) : d.Dense i := by
  intro bn hbn
  rw [h] at hbn
  exact absurd hbn (Nat.not_lt_zero _)

theorem rewrites_fields (h : d.Owned L) (ht : ip.type = (d.dinode i).type)
    (hs : ip.size = (d.dinode i).size) (ha : ip.addrs = (d.dinode i).addrs)
    (hd : D → (d.dinode i).type ≠ 0 → d.Dense i) : Rewrites L D d i (d.iupdate i ip, ip) := by
  have hst : (d.iupdate i ip).stored = d.stored := by
    rw [FsDisk.stored_iupdate_congr ht ha, FsDisk.iupdate_self]
  refine rewrites_iupdate h hst fun hD ht' bn hbn ↦ ?_
  rw [FsDisk.iupdate_dinode, update_self, hs] at hbn
  rw [FsDisk.blockAt, hst]
  exact hd hD (ht ▸ ht') bn hbn

theorem rewrites_itrunc (h : d.Owned L) (hi : (d.dinode i).type ≠ 0) :
    ∃ d', d.itrunc i (d.dinode i) = .ok (d', FsDisk.truncated (d.dinode i)) ∧
      Rewrites L D d i (d', FsDisk.truncated (d.dinode i)) := by
  obtain ⟨d', hd', howned, hdin, hst⟩ :=
    FsDisk.itrunc_spec (d := d) (i := i) (by rwa [FsDisk.iupdate_self]) hi
  refine ⟨d', hd', howned, hdin, fun j hj q _ ↦ hst j hj q, fun _ _ ↦ dense_of_size ?_⟩
  rw [hdin, update_self, FsDisk.truncated]

theorem rewrites_free (h : d.Owned L) (hi : (d.dinode i).type ≠ 0) :
    ∃ r, freeInode d i (d.dinode i) = .ok r ∧ Rewrites L D d i r ∧ r.2.type = 0 := by
  obtain ⟨d', hd', hr⟩ := rewrites_itrunc (D := D) h hi
  set ip' := { FsDisk.truncated (d.dinode i) with type := 0 } with hip'
  have hst : (d'.iupdate i ip').stored = d'.stored := by
    refine stored_iupdate_of_zero (fun q ↦ ?_) (pointer_of_type rfl)
    rw [FsDisk.stored, hr.dinode, update_self]
    exact FsDisk.pointer_of_addrs (fun _ ↦ rfl) q
  refine ⟨(d'.iupdate i ip', ip'), ?_, ⟨hr.owned.congr hst rfl, ?_, ?_, ?_⟩, rfl⟩
  · rw [freeInode, hd']
    rfl
  · rw [FsDisk.iupdate_dinode, hr.dinode, update_idem]
  · intro j hj q hq
    rw [hst]
    exact hr.keeps j hj q hq
  · exact fun _ ht ↦ absurd rfl ht

end Rewrites

omit [Fintype π] in
theorem Locks.setPc (h : s.Locks) (hholds : c.holds = (s.pc p).holds) (hdrop : ∀ e, c ≠ .drop e)
    (hput : ∀ e, s.pc p = .put e → (s.inode e).valid = true) : (s.setPc p c).Locks := by
  refine locks_iff.mpr fun q e ↦ ?_
  have hq := locks_iff.mp h q e
  by_cases hqp : q = p
  · subst hqp
    have hself : (s.setPc q c).pc q = c := update_self ..
    refine ⟨fun hl ↦ (hq.held hl).imp_right fun hv ↦ .inl (hv.elim id (hput e)), fun hc ↦ ?_,
      fun hd ↦ ?_⟩
    · rw [hself, hholds] at hc
      exact hq.holds hc
    · rw [hself] at hd
      exact absurd hd (hdrop e)
  · exact hq.stay (update_of_ne hqp ..) Iff.rfl le_rfl fun _ hv ↦ hv

theorem Inv.setPc (h : s.Inv L D F) (hholds : c.holds = (s.pc p).holds) (hdrop : ∀ e, c ≠ .drop e)
    (hput : ∀ e, s.pc p = .put e → (s.inode e).valid = true) (hfreed : ∀ e, s.pc p ≠ .freed e) :
    (s.setPc p c).Inv L D F := by
  refine h.relock rfl rfl rfl (h.locks.setPc hholds hdrop hput) fun q e hq ↦ ?_
  by_cases hqp : q = p
  · exact absurd (hqp ▸ hq) (hfreed e)
  · exact (update_of_ne hqp ..).trans hq

omit [DecidableEq π] in
theorem Inv.ialloc {type : BitVec 16} (h : s.Inv L D F) (ht : ((s.disk dev).dinode i).type = 0) :
    (s.setDisk dev ((s.disk dev).iupdate i { Dinode.zero with type := type })).Inv L D F := by
  have hst : ((s.disk dev).iupdate i { Dinode.zero with type := type }).stored
      = (s.disk dev).stored :=
    stored_iupdate_of_zero (pointer_of_type ht) (FsDisk.pointer_of_addrs fun _ ↦ rfl)
  have hr : Rewrites L D (s.disk dev) i ((s.disk dev).iupdate i { Dinode.zero with type := type },
      { Dinode.zero with type := type }) := by
    refine rewrites_iupdate (h.owned dev) hst fun _ _ ↦ dense_of_size ?_
    rw [FsDisk.iupdate_dinode, update_self]
    rfl
  refine ⟨h.count, h.unique, ⟨h.locks.held, h.locks.holds, h.locks.drops, h.locks.loaded⟩,
    fun e hlive hv hno ↦ ?_, owned_update hr h.owned, fun hD ↦ dense_update hr hD (h.dense hD)⟩
  have hold := h.coherent e hlive hv hno
  have hne : ((s.inode e).dev, (s.inode e).inum) ≠ (dev, i) := by
    intro heq
    rw [Prod.mk.injEq] at heq
    rw [dinodeOf, diskOf, heq.1, heq.2] at hold
    exact hold.2 ht
  have hsame := (dinode_update hr (s.inode e).dev (s.inode e).inum).trans (if_neg hne)
  change (s.inode e).fields = _ ∧ _
  rw [dinodeOf, diskOf, setDisk_disk, setDisk_inode, hsame]
  exact hold

/-! ## One step -/

/-- The step reads or writes an inode without holes: every block below its size is allocated. -/
def DenseAt (s : Icache n π) : IcacheAct n π → Prop
  | .readi _ e _ _ => (s.diskOf e).Dense (s.inode e).inum
  | .writei _ e _ _ _ => (s.diskOf e).Dense (s.inode e).inum
  | _ => True

/-- The entry whose on-disk inode the step writes. -/
def writes (s : Icache n π) : IcacheAct n π → Option CacheSlot
  | .writei _ e off len _ => if FsDisk.Grows (s.inode e).fields off len then some e else none
  | .itrunc _ e => some e
  | .update _ e _ _ _ => some e
  | .next p =>
    match s.pc p with
    | .counted e r => if r = 1 then some e else none
    | _ => none
  | _ => none

/-- The step writes no on-disk inode of which an entry that is not in use still has a valid copy. -/
def Fresh (s : Icache n π) (a : IcacheAct n π) : Prop :=
  ∀ e, s.writes a = some e → ∀ e', (s.inode e').ref = 0 → (s.inode e').valid = true →
    (s.inode e').key ≠ (s.inode e).key

omit [DecidableEq π] in
theorem Inv.work {x : Except BlockPanic (FsDisk n × Dinode)} (h : s.Inv L D F)
    (hlive : 0 < (s.inode e).ref)
    (hx : Outcome (fun r ↦ Rewrites L D (s.diskOf e) (s.inode e).inum r ∧
      (r.2.type ≠ 0 ∨ ∃ p, s.pc p = .freed e) ∧
      (F → ∀ e' ≠ e, (s.inode e').ref = 0 → (s.inode e').valid = true →
        (s.inode e').key = (s.inode e).key → r.2 = s.dinodeOf e))
      (· ≠ .freeingFreeBlock) x) :
    Outcome (Inv L D F) (· ≠ .panic .freeingFreeBlock) (s.work e x) := by
  cases hx with
  | ok hr => exact .ok (h.store hlive hr.1 hr.2.1 hr.2.2)
  | error hp => exact .error fun heq ↦ hp (IcacheStop.panic.inj heq)

omit [Fintype π] [DecidableEq π] in
theorem key_of_lookup (h : s.lookup dev i = some e) :
    0 < (s.inode e).ref ∧ (s.inode e).key = (dev, i) := by
  have he := List.find?_some h
  rw [decide_eq_true_iff] at he
  exact ⟨he.1, Prod.ext he.2.1 he.2.2⟩

omit [Fintype π] [DecidableEq π] in
theorem key_ne_of_lookup (h : s.lookup dev i = none) (e : CacheSlot) (he : 0 < (s.inode e).ref) :
    (s.inode e).key ≠ (dev, i) := by
  intro hkey
  have hno := List.find?_eq_none.mp h e (List.mem_finRange e)
  rw [CachedInode.key, Prod.mk.injEq] at hkey
  exact hno (decide_eq_true ⟨he, hkey⟩)

theorem Inv.iget (h : s.Inv L D F) (p : π) (dev : Dev) (i : Fin n) :
    Outcome (Inv L D F) (· ≠ .panic .freeingFreeBlock) (s.iget p dev i) := by
  unfold Icache.iget
  split
  · next e he => exact .ok (h.give (key_of_lookup he).1)
  · next hno =>
    split
    · exact .error (by decide)
    · next e he =>
      have hzero := List.find?_some he
      rw [decide_eq_true_iff] at hzero
      exact .ok (h.recycle hzero (key_ne_of_lookup hno))

theorem Inv.release (h : s.Inv L D F) (hl : s.lock e = some p)
    (hput : ∀ e', s.pc p = .put e' → e' = e) (hfreed : ∀ e', s.pc p ≠ .freed e') :
    (s.release p e).Inv L D F := by
  have hpc : ∀ q ≠ p, (s.release p e).pc q = s.pc q := fun q hq ↦ update_of_ne hq ..
  refine h.relock rfl rfl rfl (h.locks.release hl rfl rfl (fun _ _ ↦ rfl) hpc hput
    (.inr (update_self ..))) fun q e' hq ↦ ?_
  by_cases hqp : q = p
  · exact absurd (hqp ▸ hq) (hfreed e')
  · rw [hpc q hqp, hq]

theorem Inv.next (h : s.Inv L D F) (hf : F → s.Fresh (.next p)) :
    Outcome (Inv L D F) (· ≠ .panic .freeingFreeBlock) (s.next p) := by
  unfold Icache.next
  split
  · exact .error (by decide)
  · next e hp =>
    have hl : s.lock e = some p := h.locks.holds p e (by rw [hp, IcachePc.holds])
    split
    · next hv =>
      refine .ok (h.setPc ?_ (by simp) (fun e' he' ↦ ?_) (by simp [hp]))
      · rw [hp, IcachePc.holds, IcachePc.holds]
      · rw [hp, IcachePc.put.injEq] at he'
        exact he' ▸ hv.1
    · exact .ok (h.release hl (fun e' he' ↦ by rw [hp, IcachePc.put.injEq] at he'; exact he'.symm)
        (by simp [hp]))
  · next e r hp =>
    have hl : s.lock e = some p := h.locks.holds p e (by rw [hp, IcachePc.holds])
    split
    · next hr =>
      have hv : (s.inode e).valid = true :=
        (h.locks.loaded e p hl).resolve_right (by simp [hp])
      obtain ⟨hfields, htype⟩ := h.fields_eq hl hv (by simp [hp])
      have hset : (s.setPc p (.freed e)).Inv L D F :=
        h.setPc (by rw [hp, IcachePc.holds, IcachePc.holds]) (by simp) (by simp [hp]) (by simp [hp])
      refine hset.work (h.live_of_lock hl) ?_
      obtain ⟨r', hr', hrew, -⟩ := rewrites_free (D := D) (h.owned _) htype
      rw [hfields]
      have hres : freeInode (s.diskOf e) (s.inode e).inum (s.dinodeOf e) = .ok r' := hr'
      rw [hres]
      refine .ok ⟨hrew, .inr ⟨p, update_self ..⟩, fun hF e' _ hzero hv' hkey ↦ ?_⟩
      have hw : s.writes (.next p) = some e := by rw [writes, hp]; exact if_pos hr
      exact absurd hkey (hf hF e hw e' hzero hv')
    · exact .ok (h.release hl (by simp [hp]) (by simp [hp]))
  · next e hp => exact .ok (h.invalidate hp)
  · next e hp => exact .ok (h.drop hp)
  · next dev i hp =>
    exact (h.setPc (by rw [hp]; rfl) (by simp) (by simp [hp]) (by simp [hp])).iget p dev i

theorem Inv.ilock (h : s.Inv L D F) (hu : s.CanUse p e) (hfree : s.lock e = none) :
    Outcome (Inv L D F) (· ≠ .panic .freeingFreeBlock) (s.ilock p e) := by
  unfold Icache.ilock
  split
  · next hv =>
    have hlocks : (s.setLock e (some p)).Locks :=
      h.locks.take hu hfree rfl rfl (fun _ _ ↦ rfl) (fun _ _ ↦ rfl) (.inl ⟨hu.1, hv⟩)
    exact .ok (h.relock rfl rfl rfl hlocks fun _ _ hp ↦ hp)
  · split
    · exact .error (by decide)
    · next ht => exact .ok (h.load hu hfree ht)

omit [DecidableEq π] in
theorem Inv.access (h : s.Inv L D F) (ha : s.CanAccess p e) :
    0 < (s.inode e).ref ∧ (s.inode e).fields = s.dinodeOf e ∧ (s.dinodeOf e).type ≠ 0 := by
  have hv : (s.inode e).valid = true :=
    (h.locks.loaded e p ha.2).resolve_right (by simp [ha.1])
  exact ⟨h.live_of_lock ha.2, h.fields_eq ha.2 hv (by simp [ha.1])⟩

/-- **One step keeps the invariant and does not free a free block.** -/
theorem Inv.act (h : s.Inv L D F) (a : IcacheAct n π) (hd : D ∨ s.DenseAt a) (hf : F → s.Fresh a) :
    Outcome (Inv L D F) (· ≠ .panic .freeingFreeBlock) (s.act L a) := by
  have hdense : ∀ {e}, (s.dinodeOf e).type ≠ 0 → s.DenseAt a = (s.diskOf e).Dense (s.inode e).inum →
      (s.diskOf e).Dense (s.inode e).inum := fun {e} ht hat ↦
    hd.elim (fun hD ↦ h.dense hD _ _ ht) fun ha ↦ hat ▸ ha
  cases a with
  | iget p dev i =>
    rw [Icache.act]
    split
    · exact h.iget p dev i
    · exact .error (by decide)
  | idup p e =>
    rw [Icache.act]
    split
    · next hu => exact .ok (h.give (h.ref_pos hu.2))
    · exact .error (by decide)
  | ilock p e =>
    rw [Icache.act]
    split
    · next hu => exact h.ilock hu.1 hu.2
    · exact .error (by decide)
  | iunlock p e =>
    rw [Icache.act]
    split
    · next ha =>
      have hlocks : (s.setLock e none).Locks :=
        h.locks.release ha.2 rfl rfl (fun _ _ ↦ rfl) (fun _ _ ↦ rfl) (by simp [ha.1]) (.inl ha.1)
      exact .ok (h.relock rfl rfl rfl hlocks fun _ _ hp ↦ hp)
    · exact .error (by decide)
  | readi p e off len =>
    rw [Icache.act]
    split
    · next ha =>
      obtain ⟨hlive, hfields, ht⟩ := h.access ha
      have hD := hdense ht rfl
      refine h.work hlive ?_
      rw [hfields]
      refine (FsDisk.readi_spec (h.owned _) ht hD).map fun r hr ↦ ?_
      rw [hr.1, hr.2]
      exact ⟨rewrites_self (h.owned _) fun _ _ ↦ hD, .inl ht, fun _ _ _ _ _ _ ↦ rfl⟩
    · exact .error (by decide)
  | writei p e off len src =>
    rw [Icache.act]
    split
    · next ha =>
      obtain ⟨hlive, hfields, ht⟩ := h.access ha
      refine h.work hlive ?_
      rw [hfields]
      refine (FsDisk.writei_spec (h.owned _) ht (hdense ht rfl)).imp fun r hr ↦ ?_
      refine ⟨⟨hr.owned, hr.dinode, fun j _ q ↦ hr.keeps (j, q), fun _ _ ↦ hr.dense⟩,
        .inl (hr.type ▸ ht), fun hF e' _ hzero hv hkey ↦ hr.same fun hgrow ↦ ?_⟩
      have hw : s.writes (.writei p e off len src) = some e := by
        rw [writes, hfields]
        exact if_pos hgrow
      exact hf hF e hw e' hzero hv hkey
    · exact .error (by decide)
  | itrunc p e =>
    rw [Icache.act]
    split
    · next ha =>
      obtain ⟨hlive, hfields, ht⟩ := h.access ha
      refine h.work hlive ?_
      rw [hfields]
      obtain ⟨d', hd', hrew⟩ := rewrites_itrunc (D := D) (h.owned _) ht
      have hres : (s.diskOf e).itrunc (s.inode e).inum (s.dinodeOf e) = .ok _ := hd'
      rw [hres]
      exact .ok ⟨hrew, .inl ht, fun hF e' _ hzero hv hkey ↦ absurd hkey (hf hF e rfl e' hzero hv)⟩
    · exact .error (by decide)
  | update p e major minor nlink =>
    rw [Icache.act]
    split
    · next ha =>
      obtain ⟨hlive, hfields, ht⟩ := h.access ha
      rw [hfields]
      refine .ok (h.store hlive ?_ (.inl ht) fun hF e' _ hzero hv hkey ↦ ?_)
      · exact rewrites_fields (h.owned _) rfl rfl rfl fun hD ht ↦ h.dense hD _ _ ht
      · exact absurd hkey (hf hF e rfl e' hzero hv)
    · exact .error (by decide)
  | iput p e =>
    rw [Icache.act]
    split
    · next hu =>
      have hpc : ∀ q ≠ p, ((s.setLock e (some p)).setPc p (.put e)).pc q = s.pc q :=
        fun q hq ↦ update_of_ne hq ..
      have hlocks : ((s.setLock e (some p)).setPc p (.put e)).Locks :=
        h.locks.take hu.1 hu.2 rfl rfl (fun _ _ ↦ rfl) hpc (.inr (update_self ..))
      refine .ok (h.relock rfl rfl rfl hlocks fun q e' hq ↦ ?_)
      have hqp : q ≠ p := by
        rintro rfl
        rw [hu.1.1] at hq
        cases hq
      rw [hpc q hqp, hq]
    · exact .error (by decide)
  | ialloc p dev i type =>
    rw [Icache.act]
    split
    · next ha =>
      refine .ok ((h.ialloc ha.2.2).setPc ?_ (by simp) ?_ ?_)
      · rw [setDisk_pc, ha.1]
        rfl
      all_goals simp [ha.1]
    · exact .error (by decide)
  | next p => exact h.next hf

/-! ## Whole runs -/

omit [DecidableEq π] in
theorem Inv.not_freed_of_unlocked (h : s.Inv L D F) (hl : s.lock e = none) (p : π) :
    s.pc p ≠ .freed e := by
  intro hp
  rw [h.locks.holds p e (by rw [hp, IcachePc.holds])] at hl
  cases hl

omit [DecidableEq π] in
theorem Inv.of_booted (h : s.Booted) (ho : ∀ dev, (s.disk dev).Owned L)
    (hd : D → ∀ dev i, ((s.disk dev).dinode i).type ≠ 0 → (s.disk dev).Dense i) :
    s.Inv L D F := by
  have hlock : ∀ {e p}, s.lock e ≠ some p := fun {e p} hl ↦ by
    rw [h.lock] at hl
    cases hl
  refine ⟨fun e ↦ ?_, fun e _ he ↦ ?_, ⟨fun _ _ hl ↦ ?_, fun p e hp ↦ ?_, fun p e hp ↦ ?_,
    fun _ _ hl ↦ ?_⟩, fun e _ hv ↦ ?_, ho, hd⟩
  · rw [h.ref, Finset.sum_eq_zero fun p _ ↦ h.refs p e]
  · rw [h.ref] at he
    exact absurd he (lt_irrefl 0)
  · exact absurd hl hlock
  · rw [h.pc] at hp
    cases hp
  · rw [h.pc] at hp
    cases hp
  · exact absurd hl hlock
  · rw [h.valid] at hv
    cases hv

theorem inv_of_reachableUnder {I : FsDisk n → Prop} {G : Icache n π → IcacheAct n π → Prop}
    (hI : ∀ d, I d → d.Owned L ∧ (D → ∀ i, (d.dinode i).type ≠ 0 → d.Dense i))
    (hG : ∀ s a, G s a → (D ∨ s.DenseAt a) ∧ (F → s.Fresh a))
    (h : (icache L π I).ReachableUnder G s) : s.Inv L D F := by
  refine Machine.ReachableUnder.invariant (fun s hs ↦ ?_) (fun s a s' _ hs hg hstep ↦ ?_) h
  · exact .of_booted hs.1 (fun dev ↦ (hI _ (hs.2 dev)).1) fun hD dev ↦ (hI _ (hs.2 dev)).2 hD
  · obtain ⟨hd, hf⟩ := hG s a hg
    have hact : s.act L a = .ok s' := toOption_eq_some_iff.mp hstep
    exact (hs.act a hd hf).of_ok hact

/-- **Block ownership.** In every run that reads and writes only inodes all of whose blocks are
allocated, the places own exactly the marked blocks of the data area, `balloc` hands out no block in
use, and no free block is freed. -/
theorem stored_owned (h : (icache L π (FsDisk.Owned L)).ReachableUnder DenseAt s) (dev : Dev) :
    (∀ x, (s.disk dev).stored x ≠ 0 →
      L.InData ((s.disk dev).stored x) ∧ (s.disk dev).bitmap ((s.disk dev).stored x) = true) ∧
    (∀ x y, (s.disk dev).stored x ≠ 0 → (s.disk dev).stored x = (s.disk dev).stored y → x = y) ∧
    (∀ b, L.InData b → (s.disk dev).bitmap b = true → ∃! x, (s.disk dev).stored x = b) ∧
    (∀ d b, (s.disk dev).balloc L = .ok (d, b) → ∀ x, (s.disk dev).stored x ≠ b) ∧
    ∀ a, s.DenseAt a → s.act L a ≠ .error (.panic .freeingFreeBlock) := by
  have hinv : s.Inv L False False :=
    inv_of_reachableUnder (fun d hd ↦ ⟨hd, False.elim⟩) (fun s a ha ↦ ⟨.inr ha, False.elim⟩) h
  have howns := (hinv.owned dev).owns
  refine ⟨howns.used_of, howns.inj, fun b hb hbit ↦ howns.existsUnique_owner ⟨hb, hbit⟩,
    fun d b hb ↦ ?_, fun a ha hstop ↦ ?_⟩
  · exact (hinv.owned dev).stored_ne ((FsDisk.balloc_spec L _).of_ok hb).1
  · exact (hinv.act a (.inr ha) False.elim).of_error hstop rfl

/-- The image that both runs below start from, but for the size: one file without any block. -/
def fileImage (n : ℕ) (size : Word) : FsDisk n where
  bitmap b := decide (b.toNat < 2)
  dinode _ := ⟨2, 0, 0, 1, size, fun _ ↦ 0⟩
  data _ _ := 0

/-- The data area has `k` blocks. -/
def layoutOf (k : Fin 5) : Layout := ⟨2 + k, 2, by omega, by decide⟩

def smallLayout : Layout := layoutOf 2

theorem owned_fileImage (n : ℕ) (size : Word) {k : Fin 5} :
    (fileImage n size).Owned (layoutOf k) := by
  have hst : ∀ x, (fileImage n size).stored x = 0 := fun x ↦
    FsDisk.pointer_of_addrs (fun _ ↦ rfl) x.2
  have hno : ∀ b, ¬((layoutOf k).InData b ∧ (fileImage n size).bitmap b = true) := by
    rintro b ⟨hin, hb⟩
    exact absurd (of_decide_eq_true hb) (not_lt.mpr hin.1)
  refine ⟨⟨fun x hx ↦ absurd (hst x) hx, fun x _ hx ↦ absurd (hst x) hx, fun b hb ↦ ?_, hno 0⟩,
    fun b hb ↦ decide_eq_true hb⟩
  exact absurd hb (hno b)

section Decidable

variable (s : Icache n π) (a : IcacheAct n π)

instance : Decidable (s.DenseAt a) :=
  match a with
  | .readi _ e _ _ => inferInstanceAs (Decidable ((s.diskOf e).Dense (s.inode e).inum))
  | .writei _ e _ _ _ => inferInstanceAs (Decidable ((s.diskOf e).Dense (s.inode e).inum))
  | .iget .. | .idup .. | .ilock .. | .iunlock .. | .itrunc .. | .update .. | .iput .. | .ialloc ..
  | .next _ => inferInstanceAs (Decidable True)

instance : Decidable (s.Fresh a) :=
  inferInstanceAs (Decidable (∀ _, _ → ∀ _, _ → _ → _))

end Decidable

/-- A process writes two blocks to an empty file. -/
theorem stored_owned_writei : ∃ s : Icache 1 Unit,
    (icache smallLayout Unit (FsDisk.Owned smallLayout)).ReachableUnder DenseAt s ∧
    (s.disk 1).stored (0, .direct 0) = 2 ∧ (s.disk 1).stored (0, .direct 1) = 3 ∧
    ∃! x, (s.disk 1).stored x = 3 := by
  obtain ⟨s, hs, hend⟩ := Machine.exists_reachableUnder_of_run
    (M := icache (n := 1) smallLayout Unit (FsDisk.Owned smallLayout)) (G := DenseAt)
    [.iget () 1 0, .ilock () 0, .writei () 0 0 600 fun _ ↦ 1, .iunlock () 0]
    (fun s ↦ decide ((s.disk 1).stored (0, .direct 0) = 2 ∧ (s.disk 1).stored (0, .direct 1) = 3 ∧
      (s.disk 1).bitmap 3 = true))
    (s := boot 0 fun _ ↦ fileImage 1 0) ⟨booted_boot _ _, fun _ ↦ owned_fileImage _ _⟩
    (by decide +kernel)
  obtain ⟨h₂, h₃, hbit⟩ := of_decide_eq_true hend
  exact ⟨s, hs, h₂, h₃, (stored_owned hs 1).2.2.1 3 (by decide) hbit⟩

/-- A file of one byte whose block is missing is read, and the reference to it put. The block that
`readi` has allocated is marked, and stored nowhere. -/
theorem exists_leaked_block : ∃ s : Icache 1 Unit,
    (icache smallLayout Unit (FsDisk.Owned smallLayout)).Reachable s ∧ (∀ p, s.pc p = .run) ∧
    ∃ b, smallLayout.InData b ∧ (s.disk 1).bitmap b = true ∧ ∀ x, (s.disk 1).stored x ≠ b := by
  obtain ⟨s, hs, hend⟩ := Machine.exists_reachable_of_run
    (M := icache (n := 1) smallLayout Unit (FsDisk.Owned smallLayout))
    [.iget () 1 0, .ilock () 0, .readi () 0 0 1, .iunlock () 0, .iput () 0, .next (), .next ()]
    (fun s ↦ decide (s.pc () = .run ∧ (s.disk 1).bitmap 2 = true ∧
      ∀ k, ((s.disk 1).dinode 0).addrs k = 0))
    (s := boot 0 fun _ ↦ fileImage 1 1) ⟨booted_boot _ _, fun _ ↦ owned_fileImage _ _⟩
    (by decide +kernel)
  obtain ⟨hpc, hbit, haddrs⟩ := of_decide_eq_true hend
  refine ⟨s, hs, fun _ ↦ hpc, 2, by decide, hbit, ?_⟩
  rintro ⟨i, q⟩
  rw [Subsingleton.elim i 0, FsDisk.stored, FsDisk.pointer_of_addrs haddrs]
  decide

def Full (L : Layout) (d : FsDisk n) : Prop :=
  d.Owned L ∧ ∀ i, (d.dinode i).type ≠ 0 → d.Dense i

/-- **Cache coherence.** In every run in which no on-disk inode is written while an entry that is
not in use has a valid copy of it, there is one entry in use for each inode, it counts its
references, and a valid and unlocked entry agrees with the disk. -/
theorem cache_coherent (h : (icache L π (Full L)).ReachableUnder Fresh s) :
    (∀ e e', 0 < (s.inode e).ref → 0 < (s.inode e').ref →
      (s.inode e).key = (s.inode e').key → e = e') ∧
    (∀ e, (s.inode e).ref = ∑ p, s.refs p e) ∧
    ∀ e, (s.inode e).valid = true → s.lock e = none → (s.inode e).fields = s.dinodeOf e := by
  have hinv : s.Inv L True True := inv_of_reachableUnder (fun d hd ↦ ⟨hd.1, fun _ ↦ hd.2⟩)
    (fun s a ha ↦ ⟨.inl trivial, fun _ ↦ ha⟩) h
  refine ⟨hinv.unique, hinv.count, fun e hv hl ↦ ?_⟩
  exact (hinv.coherent e (.inr trivial) hv (hinv.not_freed_of_unlocked hl)).1

theorem full_fileImage (n : ℕ) : Full smallLayout (fileImage n 0) :=
  ⟨owned_fileImage n 0, fun _ _ ↦ dense_of_size rfl⟩

/-- An inode without links is freed by `iput` and allocated again before `iput` drops its reference;
the new owner gets the same entry and loads it. -/
theorem cache_coherent_ialloc : ∃ s : Icache 1 Bool,
    (icache smallLayout Bool (Full smallLayout)).ReachableUnder Fresh s ∧ (s.inode 0).ref = 2 ∧
    (s.inode 0).fields.type = 1 ∧ (s.inode 0).fields = s.dinodeOf 0 := by
  obtain ⟨s, hs, hend⟩ := Machine.exists_reachableUnder_of_run
    (M := icache (n := 1) smallLayout Bool (Full smallLayout)) (G := Fresh)
    [.iget false 1 0, .ilock false 0, .update false 0 0 0 0, .iunlock false 0, .iput false 0,
      .next false, .next false, .ialloc true 1 0 1, .next false, .next true, .ilock true 0,
      .iunlock true 0]
    (fun s ↦ decide ((s.inode 0).ref = 2 ∧ (s.inode 0).fields.type = 1 ∧
      (s.inode 0).valid = true ∧ s.lock 0 = none))
    (s := boot 0 fun _ ↦ fileImage 1 0) ⟨booted_boot _ _, fun _ ↦ full_fileImage 1⟩
    (by decide +kernel)
  obtain ⟨href, htype, hv, hl⟩ := of_decide_eq_true hend
  exact ⟨s, hs, href, htype, (cache_coherent hs).2.2 0 hv hl⟩

/-- A process puts its last reference to a file that it has locked before; the file is opened again
through another entry and grows. The first entry is still valid, and has the old size. -/
theorem exists_stale_entry : ∃ s : Icache 2 Unit,
    (icache smallLayout Unit (Full smallLayout)).Reachable s ∧
    ∃ e, (s.inode e).valid = true ∧ s.lock e = none ∧ (s.inode e).fields ≠ s.dinodeOf e := by
  obtain ⟨s, hs, hend⟩ := Machine.exists_reachable_of_run
    (M := icache (n := 2) smallLayout Unit (Full smallLayout))
    [.iget () 1 1, .iget () 1 0, .ilock () 1, .iunlock () 1, .iput () 0, .next (), .next (),
      .iput () 1, .next (), .next (), .iget () 1 0, .ilock () 0, .writei () 0 0 1 fun _ ↦ 1,
      .iunlock () 0]
    (fun s ↦ decide ((s.inode 1).valid = true ∧ s.lock 1 = none ∧
      (s.inode 1).fields ≠ s.dinodeOf 1))
    (s := boot 0 fun _ ↦ fileImage 2 0) ⟨booted_boot _ _, fun _ ↦ full_fileImage 2⟩
    (by decide +kernel)
  exact ⟨s, hs, 1, of_decide_eq_true hend⟩

end Icache

end OperatingSystems
