import Mathlib.Algebra.Order.BigOperators.Group.Finset
import OperatingSystems.Fs.Icache
import OperatingSystems.Fs.Owned

/-!
# The invariant of the inode cache

An entry counts the references that were handed out, no two entries in use are about the same inode,
and a lock is held only by a process with a reference. While an entry is valid its fields are those
of the on-disk inode, except in the short time in which `iput` has freed the inode and has not yet
cleared `valid`: then `ialloc` may have taken the inode again.

Each section of the source keeps the invariant. Those that only move references and locks come
first; `Inv.frame` covers most of them.
-/

namespace OperatingSystems

open Function

/-- The entry whose lock `iput` holds. -/
def IcachePc.holds {n : ℕ} : IcachePc n → Option CacheSlot
  | .put e => some e
  | .counted e _ => some e
  | .freed e => some e
  | _ => none

def CachedInode.key {n : ℕ} (v : CachedInode n) : Dev × Fin n := (v.dev, v.inum)

namespace Icache

variable {n : ℕ} {π : Type} [Fintype π] {L : Layout} {D F : Prop} {s s' : Icache n π} {p : π}
  {e : CacheSlot} {f : Dinode}

structure Locks (s : Icache n π) : Prop where
  held : ∀ e p, s.lock e = some p → 0 < s.refs p e
  holds : ∀ p e, (s.pc p).holds = some e → s.lock e = some p
  drops : ∀ p e, s.pc p = .drop e → 0 < s.refs p e ∧ s.lock e ≠ some p
  loaded : ∀ e p, s.lock e = some p → (s.inode e).valid = true ∨ s.pc p = .put e

/-- What `Locks` says about one process and one entry. -/
structure LocksAt (s : Icache n π) (p : π) (e : CacheSlot) : Prop where
  held : s.lock e = some p → 0 < s.refs p e ∧ ((s.inode e).valid = true ∨ s.pc p = .put e)
  holds : (s.pc p).holds = some e → s.lock e = some p
  drops : s.pc p = .drop e → 0 < s.refs p e ∧ s.lock e ≠ some p

omit [Fintype π] in
theorem locks_iff : s.Locks ↔ ∀ p e, s.LocksAt p e := by
  constructor
  · intro h p e
    exact ⟨fun hl ↦ ⟨h.held e p hl, h.loaded e p hl⟩, h.holds p e, h.drops p e⟩
  · intro h
    exact ⟨fun e p hl ↦ ((h p e).held hl).1, fun p e ↦ (h p e).holds, fun p e ↦ (h p e).drops,
      fun e p hl ↦ ((h p e).held hl).2⟩

omit [Fintype π] in
theorem LocksAt.stay (h : s.LocksAt p e) (hpc : s'.pc p = s.pc p)
    (hlock : s'.lock e = some p ↔ s.lock e = some p) (hrefs : s.refs p e ≤ s'.refs p e)
    (hvalid : s.lock e = some p → (s.inode e).valid = true → (s'.inode e).valid = true) :
    s'.LocksAt p e := by
  refine ⟨fun hl ↦ ?_, fun hc ↦ hlock.mpr (h.holds (hpc ▸ hc)), fun hd ↦ ?_⟩
  · have hl := hlock.mp hl
    rw [hpc]
    exact (h.held hl).imp (·.trans_le hrefs) (Or.imp_left (hvalid hl))
  · exact (h.drops (hpc ▸ hd)).imp (·.trans_le hrefs) (mt hlock.mp)

omit [Fintype π] in
theorem Locks.relock [DecidableEq π] {o : Option π} (h : s.Locks)
    (ho : ∀ q ≠ p, s.lock e ≠ some q ∧ o ≠ some q)
    (hlock : s'.lock = update s.lock e o) (hrefs : s'.refs = s.refs)
    (hvalid : ∀ e' ≠ e, (s'.inode e').valid = (s.inode e').valid)
    (hpc : ∀ q ≠ p, s'.pc q = s.pc q)
    (hother : ∀ e' ≠ e, s.pc p ≠ .put e' ∧ (s'.pc p).holds ≠ some e' ∧ s'.pc p ≠ .drop e')
    (hp : s'.LocksAt p e) : s'.Locks := by
  have hsame : ∀ e' ≠ e, s'.lock e' = s.lock e' := fun e' he ↦ by
    rw [hlock, update_of_ne he]
  refine locks_iff.mpr fun q e' ↦ ?_
  by_cases hq : q = p <;> by_cases he : e' = e
  · rwa [hq, he]
  · subst hq
    obtain ⟨hput, hholds, hdrop⟩ := hother e' he
    refine ⟨fun hl ↦ ?_, fun hc ↦ absurd hc hholds, fun hd ↦ absurd hd hdrop⟩
    rw [hsame e' he] at hl
    rw [hrefs, hvalid e' he]
    exact ⟨h.held e' q hl, .inl ((h.loaded e' q hl).resolve_right hput)⟩
  · subst he
    refine (locks_iff.mp h q e').stay (hpc q hq) ?_ (hrefs ▸ le_rfl) fun hl ↦ absurd hl (ho q hq).1
    rw [hlock, update_self]
    exact iff_of_false (ho q hq).2 (ho q hq).1
  · refine (locks_iff.mp h q e').stay (hpc q hq) ?_ (hrefs ▸ le_rfl) fun _ hv ↦ ?_
    · rw [hsame e' he]
    · rw [hvalid e' he, hv]

omit [Fintype π] in
theorem Locks.take [DecidableEq π] (h : s.Locks) (hu : s.CanUse p e) (hfree : s.lock e = none)
    (hlock : s'.lock = update s.lock e (some p)) (hrefs : s'.refs = s.refs)
    (hvalid : ∀ e' ≠ e, (s'.inode e').valid = (s.inode e').valid)
    (hpc : ∀ q ≠ p, s'.pc q = s.pc q)
    (hp : s'.pc p = .run ∧ (s'.inode e).valid = true ∨ s'.pc p = .put e) : s'.Locks := by
  refine h.relock (fun q hq ↦ ?_) hlock hrefs hvalid hpc (fun e' he ↦ ?_)
    ⟨fun _ ↦ ?_, fun _ ↦ ?_, ?_⟩
  · rw [hfree]
    exact ⟨Option.some_ne_none q ∘ Eq.symm, fun hpq ↦ hq (Option.some.inj hpq).symm⟩
  · rw [hu.1]
    rcases hp with ⟨hp, -⟩ | hp <;> rw [hp] <;> simp [IcachePc.holds, Ne.symm he]
  · exact ⟨hrefs ▸ hu.2, hp.imp_left And.right⟩
  · rw [hlock, update_self]
  · rcases hp with ⟨hp, -⟩ | hp <;> simp [hp]

omit [Fintype π] in
theorem Locks.release [DecidableEq π] (h : s.Locks) (hl : s.lock e = some p)
    (hlock : s'.lock = update s.lock e none) (hrefs : s'.refs = s.refs)
    (hvalid : ∀ e' ≠ e, (s'.inode e').valid = (s.inode e').valid)
    (hpc : ∀ q ≠ p, s'.pc q = s.pc q) (hput : ∀ e', s.pc p = .put e' → e' = e)
    (hp : s'.pc p = .run ∨ s'.pc p = .drop e) : s'.Locks := by
  have hfree : s'.lock e = none := by rw [hlock, update_self]
  refine h.relock (fun q hq ↦ ?_) hlock hrefs hvalid hpc (fun e' he ↦ ⟨mt (hput e') he, ?_⟩)
    ⟨fun hl' ↦ ?_, ?_, fun _ ↦ ?_⟩
  · rw [hl]
    exact ⟨fun hpq ↦ hq (Option.some.inj hpq).symm, Option.some_ne_none q ∘ Eq.symm⟩
  · rcases hp with hp | hp <;> simp [hp, IcachePc.holds, Ne.symm he]
  · rw [hfree] at hl'
    cases hl'
  · rcases hp with hp | hp <;> simp [hp, IcachePc.holds]
  · rw [hfree]
    exact ⟨hrefs ▸ h.held e p hl, Option.some_ne_none p ∘ Eq.symm⟩

/-- The invariant of the inode layer. `D` says whether every block below the size of an inode is
allocated, and `F` whether also the entries that are not in use keep up with the disk. -/
structure Inv (L : Layout) (D F : Prop) (s : Icache n π) : Prop where
  count : ∀ e, (s.inode e).ref = ∑ p, s.refs p e
  unique : ∀ e e', 0 < (s.inode e).ref → 0 < (s.inode e').ref →
    (s.inode e).key = (s.inode e').key → e = e'
  locks : s.Locks
  coherent : ∀ e, 0 < (s.inode e).ref ∨ F → (s.inode e).valid = true →
    (∀ p, s.pc p ≠ .freed e) → (s.inode e).fields = s.dinodeOf e ∧ (s.dinodeOf e).type ≠ 0
  owned : ∀ dev, (s.disk dev).Owned L
  dense : D → ∀ dev i, ((s.disk dev).dinode i).type ≠ 0 → (s.disk dev).Dense i

namespace Inv

theorem ref_pos (h : s.Inv L D F) (hp : 0 < s.refs p e) : 0 < (s.inode e).ref := by
  rw [h.count]
  exact hp.trans_le (Finset.single_le_sum (f := fun q ↦ s.refs q e) (fun _ _ ↦ Nat.zero_le _)
    (Finset.mem_univ p))

theorem refs_eq_zero (h : s.Inv L D F) (he : (s.inode e).ref = 0) (q : π) : s.refs q e = 0 := by
  by_contra hq
  exact (h.ref_pos (Nat.pos_of_ne_zero hq)).ne' he

theorem live_of_lock (h : s.Inv L D F) (hl : s.lock e = some p) : 0 < (s.inode e).ref :=
  h.ref_pos (h.locks.held e p hl)

theorem not_freed (h : s.Inv L D F) (hl : s.lock e = some p) (hp : s.pc p ≠ .freed e) (q : π) :
    s.pc q ≠ .freed e := by
  intro hq
  have hlock := h.locks.holds q e (by rw [hq, IcachePc.holds])
  rw [hl, Option.some.injEq] at hlock
  exact hp (hlock ▸ hq)

theorem fields_eq (h : s.Inv L D F) (hl : s.lock e = some p) (hv : (s.inode e).valid = true)
    (hp : s.pc p ≠ .freed e) :
    (s.inode e).fields = s.dinodeOf e ∧ (s.dinodeOf e).type ≠ 0 :=
  h.coherent e (.inl (h.live_of_lock hl)) hv (h.not_freed hl hp)

theorem frame (h : s.Inv L D F) (hdisk : s'.disk = s.disk)
    (hin : ∀ e, ∃ k, s'.inode e = { s.inode e with ref := k })
    (hlive : ∀ e, 0 < (s'.inode e).ref → 0 < (s.inode e).ref)
    (hcount : ∀ e, (s'.inode e).ref = ∑ p, s'.refs p e) (hlocks : s'.Locks)
    (hfreed : ∀ p e, s.pc p = .freed e → s'.pc p = .freed e) : s'.Inv L D F := by
  have hkey : ∀ e, (s'.inode e).key = (s.inode e).key := fun e ↦ by
    obtain ⟨k, hk⟩ := hin e
    rw [hk, CachedInode.key, CachedInode.key]
  have hdinode : ∀ e, s'.dinodeOf e = s.dinodeOf e := fun e ↦ by
    obtain ⟨k, hk⟩ := hin e
    rw [dinodeOf, dinodeOf, diskOf, diskOf, hk, hdisk]
  refine ⟨hcount, fun e e' he he' hee ↦ ?_, hlocks, fun e he hv hno ↦ ?_, ?_, ?_⟩
  · rw [hkey, hkey] at hee
    exact h.unique e e' (hlive e he) (hlive e' he') hee
  · obtain ⟨k, hk⟩ := hin e
    rw [hdinode]
    rw [hk] at hv ⊢
    exact h.coherent e (he.imp_left (hlive e)) hv fun p hp ↦ hno p (hfreed p e hp)
  · rw [hdisk]
    exact h.owned
  · rw [hdisk]
    exact h.dense

theorem relock (h : s.Inv L D F) (hdisk : s'.disk = s.disk) (hin : s'.inode = s.inode)
    (hrefs : s'.refs = s.refs) (hlocks : s'.Locks)
    (hfreed : ∀ p e, s.pc p = .freed e → s'.pc p = .freed e) : s'.Inv L D F := by
  refine h.frame hdisk (fun e ↦ ⟨(s.inode e).ref, by rw [hin]⟩)
    (fun e he ↦ hin ▸ he) ?_ hlocks hfreed
  rw [hin, hrefs]
  exact h.count

theorem same (h : s.Inv L D F) (hrefs : s'.refs = s.refs)
    (hin : ∀ e, (s'.inode e).ref = (s.inode e).ref ∧ (s'.inode e).key = (s.inode e).key) :
    (∀ e, (s'.inode e).ref = ∑ p, s'.refs p e) ∧ ∀ e e', 0 < (s'.inode e).ref →
      0 < (s'.inode e').ref → (s'.inode e).key = (s'.inode e').key → e = e' := by
  refine ⟨fun e ↦ ?_, fun e e' he he' hkey ↦ ?_⟩
  · rw [(hin e).1, hrefs, h.count]
  · rw [(hin e).1] at he
    rw [(hin e').1] at he'
    rw [(hin e).2, (hin e').2] at hkey
    exact h.unique e e' he he' hkey

theorem revalue (h : s.Inv L D F) {v : Bool} (hdisk : s'.disk = s.disk) (hrefs : s'.refs = s.refs)
    (hin : s'.inode = update s.inode e { s.inode e with valid := v, fields := f })
    (hlocks : s'.Locks) (hv : v = true → f = s.dinodeOf e ∧ (s.dinodeOf e).type ≠ 0)
    (hfreed : ∀ p, ∀ e' ≠ e, s.pc p = .freed e' → s'.pc p = .freed e') : s'.Inv L D F := by
  have hself : s'.inode e = { s.inode e with valid := v, fields := f } := by
    rw [hin, update_self]
  have hne : ∀ e' ≠ e, s'.inode e' = s.inode e' := fun e' he ↦ by rw [hin, update_of_ne he]
  obtain ⟨hcount, hunique⟩ := h.same hrefs fun e' ↦ by
    by_cases he : e' = e
    · rw [he, hself]
      exact ⟨rfl, rfl⟩
    · rw [hne e' he]
      exact ⟨rfl, rfl⟩
  refine ⟨hcount, hunique, hlocks, fun e' hlive hval hno ↦ ?_, hdisk ▸ h.owned, hdisk ▸ h.dense⟩
  rw [dinodeOf, diskOf, hdisk]
  by_cases he : e' = e
  · subst he
    rw [hself] at hval ⊢
    exact hv hval
  · rw [hne e' he] at hlive hval ⊢
    exact h.coherent e' hlive hval fun p hp ↦ hno p (hfreed p e' he hp)

end Inv

variable [DecidableEq π]

theorem sum_setRefs (p : π) (e : CacheSlot) (k : ℕ) :
    ∑ q, (s.setRefs p e k).refs q e + s.refs p e = ∑ q, s.refs q e + k := by
  have hsum := sum_add_of_eq_off (w := fun q ↦ s.refs q e) (v := fun q ↦ (s.setRefs p e k).refs q e)
    p fun q hq ↦ by rw [setRefs_refs, update_of_ne hq]
  simpa only [setRefs_refs, update_self] using hsum

omit [Fintype π] in
theorem refs_setRefs_of_ne {q : π} {e' : CacheSlot} (h : q ≠ p ∨ e' ≠ e) (k : ℕ) :
    (s.setRefs p e k).refs q e' = s.refs q e' := by
  rw [setRefs_refs]
  by_cases hq : q = p
  · rw [hq, update_self, update_of_ne (h.resolve_left (not_not.mpr hq))]
  · rw [update_of_ne hq]

omit [Fintype π] in
theorem Locks.give {v : CachedInode n} (h : s.Locks)
    (hv : ∀ q, s.lock e = some q → v.valid = (s.inode e).valid) :
    ((s.setInode e v).give p e).Locks := by
  refine locks_iff.mpr fun q e' ↦ (locks_iff.mp h q e').stay rfl Iff.rfl ?_ fun hl hval ↦ ?_
  · by_cases hqe : q = p ∧ e' = e
    · rw [hqe.1, hqe.2, Icache.give, setRefs_refs, update_self, update_self]
      exact Nat.le_succ _
    · exact (refs_setRefs_of_ne (not_and_or.mp hqe) _).ge
  · refine Eq.trans ?_ hval
    by_cases he : e' = e
    · subst he
      exact (congrArg _ (update_self ..)).trans (hv q hl)
    · exact congrArg _ (update_of_ne he ..)

omit [Fintype π] [DecidableEq π] in
theorem inode_setRef (k : ℕ) (e' : CacheSlot) :
    (s.setInode e { s.inode e with ref := k }).inode e'
      = { s.inode e' with ref := if e' = e then k else (s.inode e').ref } := by
  by_cases he : e' = e
  · rw [he, if_pos rfl]
    exact update_self ..
  · rw [if_neg he]
    exact update_of_ne he ..

namespace Inv

theorem count_setRefs (h : s.Inv L D F) {k m : ℕ} (hm : m + s.refs p e = (s.inode e).ref + k)
    (e' : CacheSlot) :
    (if e' = e then m else (s.inode e').ref) = ∑ q, (s.setRefs p e k).refs q e' := by
  have hcount := h.count e'
  by_cases he : e' = e
  · subst he
    have hsum := sum_setRefs (s := s) p e' k
    rw [if_pos rfl]
    omega
  · rw [if_neg he, hcount]
    exact Finset.sum_congr rfl fun q _ ↦ (refs_setRefs_of_ne (.inr he) k).symm

theorem give (h : s.Inv L D F) (he : 0 < (s.inode e).ref) :
    ((s.setInode e { s.inode e with ref := (s.inode e).ref + 1 }).give p e).Inv L D F := by
  refine h.frame rfl (fun e' ↦ ⟨_, inode_setRef _ e'⟩) (fun e' he' ↦ ?_) (fun e' ↦ ?_)
    (h.locks.give fun _ _ ↦ rfl) fun _ _ hp ↦ hp
  · by_cases hee : e' = e
    · exact hee ▸ he
    · exact he'.trans_eq (congrArg _ (update_of_ne hee ..))
  · refine (congrArg _ (inode_setRef _ e')).trans (h.count_setRefs ?_ e')
    exact Nat.add_right_comm ..

theorem drop (h : s.Inv L D F) (hp : s.pc p = .drop e) :
    (((s.setInode e { s.inode e with ref := (s.inode e).ref - 1 }).setRefs p e
      (s.refs p e - 1)).setPc p .run).Inv L D F := by
  obtain ⟨hpos, hno⟩ := h.locks.drops p e hp
  have hlive := h.ref_pos hpos
  set t := ((s.setInode e { s.inode e with ref := (s.inode e).ref - 1 }).setRefs p e
    (s.refs p e - 1)).setPc p .run with ht
  have hin : ∀ e', t.inode e' = _ := inode_setRef _
  have hrefs : ∀ {q e'}, q ≠ p ∨ e' ≠ e → t.refs q e' = s.refs q e' := fun h ↦
    refs_setRefs_of_ne (s := s) h _
  have hpc : ∀ q ≠ p, t.pc q = s.pc q := fun q hq ↦ update_of_ne hq ..
  have hrun : t.pc p = .run := update_self ..
  refine h.frame rfl (fun e' ↦ ⟨_, hin e'⟩) (fun e' he' ↦ ?_) (fun e' ↦ ?_)
    (locks_iff.mpr fun q e' ↦ ?_) fun q e' hq ↦ ?_
  · by_cases hee : e' = e
    · exact hee ▸ hlive
    · rwa [hin, if_neg hee] at he'
  · rw [hin]
    exact h.count_setRefs (by omega) e'
  · by_cases hqp : q = p
    · subst hqp
      refine ⟨fun hl ↦ ?_, fun hc ↦ ?_, fun hd ↦ ?_⟩
      · have hee : e' ≠ e := by
          rintro rfl
          exact hno hl
        rw [hrefs (.inr hee), hin]
        refine ⟨h.locks.held e' q hl, (h.locks.loaded e' q hl).imp_right fun hput ↦ ?_⟩
        rw [hp] at hput
        cases hput
      · rw [hrun] at hc
        cases hc
      · rw [hrun] at hd
        cases hd
    · refine (locks_iff.mp h.locks q e').stay (hpc q hqp) Iff.rfl (hrefs (.inl hqp)).ge
        fun _ hv ↦ ?_
      rwa [hin]
  · have hqp : q ≠ p := by
      rintro rfl
      rw [hp] at hq
      cases hq
    rw [hpc q hqp, hq]

theorem recycle (h : s.Inv L D F) {dev : Dev} {i : Fin n} (he : (s.inode e).ref = 0)
    (hnew : ∀ e', 0 < (s.inode e').ref → (s.inode e').key ≠ (dev, i)) :
    ((s.setInode e ⟨dev, i, 1, false, f⟩).give p e).Inv L D F := by
  set t := s.setInode e ⟨dev, i, 1, false, f⟩ with ht
  have hself : (t.give p e).inode e = ⟨dev, i, 1, false, f⟩ := update_self ..
  have hin : ∀ e' ≠ e, (t.give p e).inode e' = s.inode e' := fun e' he' ↦
    update_of_ne he' ..
  have hzero := h.refs_eq_zero he
  refine ⟨fun e' ↦ ?_, fun e₁ e₂ h₁ h₂ hkey ↦ ?_, h.locks.give fun q hq ↦ ?_,
    fun e' hlive hv hno ↦ ?_, h.owned, h.dense⟩
  · refine Eq.trans ?_ (h.count_setRefs (p := p) (k := s.refs p e + 1) (m := 1) (by omega) e')
    by_cases hee : e' = e
    · rw [hee, hself, if_pos rfl]
    · rw [hin e' hee, if_neg hee]
  · by_cases he₁ : e₁ = e <;> by_cases he₂ : e₂ = e
    · rw [he₁, he₂]
    · rw [he₁, hself, hin e₂ he₂] at hkey
      exact absurd hkey.symm (hnew e₂ (hin e₂ he₂ ▸ h₂))
    · rw [he₂, hself, hin e₁ he₁] at hkey
      exact absurd hkey (hnew e₁ (hin e₁ he₁ ▸ h₁))
    · rw [hin e₁ he₁] at h₁ hkey
      rw [hin e₂ he₂] at h₂ hkey
      exact h.unique e₁ e₂ h₁ h₂ hkey
  · exact absurd (hzero q) (h.locks.held e q hq).ne'
  · have hee : e' ≠ e := by
      rintro rfl
      rw [hself] at hv
      cases hv
    rw [hin e' hee] at hlive hv ⊢
    rw [dinodeOf, diskOf, hin e' hee]
    exact h.coherent e' hlive hv hno

theorem load (h : s.Inv L D F) (hu : s.CanUse p e) (hfree : s.lock e = none)
    (ht : (s.dinodeOf e).type ≠ 0) :
    ((s.setLock e (some p)).setInode e
      { s.inode e with valid := true, fields := s.dinodeOf e }).Inv L D F := by
  refine h.revalue rfl rfl rfl ?_ (fun _ ↦ ⟨rfl, ht⟩) fun _ _ _ hp ↦ hp
  refine h.locks.take hu hfree rfl rfl (fun e' he ↦ ?_) (fun _ _ ↦ rfl) (.inl ⟨hu.1, ?_⟩)
  · exact congrArg _ (update_of_ne he ..)
  · rw [setInode_inode, update_self]

theorem invalidate (h : s.Inv L D F) (hp : s.pc p = .freed e) :
    ((s.setInode e { s.inode e with valid := false }).release p e).Inv L D F := by
  have hl : s.lock e = some p := h.locks.holds p e (by rw [hp, IcachePc.holds])
  refine h.revalue rfl rfl rfl ?_ (fun hv ↦ by cases hv) fun q e' he hq ↦ ?_
  · refine h.locks.release hl rfl rfl (fun e' he ↦ ?_) (fun q hq ↦ update_of_ne hq ..)
      (fun e' he' ↦ ?_) (.inr (update_self ..))
    · exact congrArg _ (update_of_ne he ..)
    · rw [hp] at he'
      cases he'
  · have hqp : q ≠ p := by
      rintro rfl
      rw [hp, IcachePc.freed.injEq] at hq
      exact he hq.symm
    exact (update_of_ne hqp ..).trans hq

end Inv

end Icache

end OperatingSystems
