import Mathlib.Algebra.Order.BigOperators.Group.Finset
import OperatingSystems.Fs.Sections

/-!
# Reference counts and locks

What holds in every run, however the calls interleave: a reference count is the number of references
that processes and open files hold, a lock is held by the process whose program counter says so, a
cached inode is an allocated one, the inode that a `link` is about is not a directory, and no
directory names itself but by `"."` and `".."`.
-/

namespace OperatingSystems

open Function

variable {n : ℕ} {i : Fin n}

theorem Pc.mem_refs_of_linking {pc : Pc n} (h : pc.linking = some i) : i ∈ pc.refs := by
  induction pc with
  | namex k path =>
    cases k with
    | linkNew ip => exact Option.some.inj h ▸ List.mem_singleton_self _
    | _ => cases h
  | walk k ip path =>
    cases k with
    | linkNew ip => exact Option.some.inj h ▸ List.mem_cons_of_mem _ (List.mem_singleton_self _)
    | _ => cases h
  | iput j t ih => exact List.mem_cons_of_mem _ (ih h)
  | drop j t ih => exact List.mem_cons_of_mem _ (ih h)
  | linkDir ip dp name => exact Option.some.inj h ▸ List.mem_cons_self
  | linkUndo ip dp => exact Option.some.inj h ▸ List.mem_cons_self
  | linkBad ip => exact Option.some.inj h ▸ List.mem_cons_self
  | _ => cases h

theorem FsProc.holds_pos {x : FsProc n} (h : i ∈ x.pc.refs) : 0 < x.holds i :=
  Nat.add_pos_right _ (List.count_pos_iff.mpr h)

theorem Pc.mem_locks_of_unlinking {pc : Pc n} (h : pc.unlinking = some i) : i ∈ pc.locks := by
  induction pc with
  | iput j t ih => exact ih h
  | drop j t ih => exact ih h
  | unlinkDec ip => exact Option.some.inj h ▸ List.mem_singleton_self _
  | _ => cases h

namespace Fs

variable {I I' : Inodes n} {dp ip x : Fin n} {full : Bool} {m : Make} {name : Bytes} {a : FsAct}

theorem erased_of_ne {off : ℕ} (h : x ≠ dp) : erased I dp ip off x = I x := by
  rw [erased]
  split_ifs
  · rw [Inodes.addLink, update_of_ne h, Inodes.clearEntry_of_ne h]
  · rw [Inodes.clearEntry_of_ne h]

theorem entered_of_ne (h : entered full I m dp name ip = .ok I') (hd : x ≠ dp) (hi : x ≠ ip) :
    I' x = I x := by
  have hlink : ∀ {J J' : Inodes n} {why : FsPanic} {d i : Fin n} {name : Bytes}, x ≠ d →
      J.dirlink why full d name i = .ok J' → J' x = J x := by
    intro J J' why d i name hx hJ
    obtain ⟨-, -, hJ⟩ := Inodes.writeEntry_of_dirlink hJ
    rw [Inodes.eq_of_writeEntry hJ, Inodes.addEntry_of_ne hx]
  have hinit : initialised I m ip x = I x := update_of_ne hi ..
  rw [entered] at h
  split_ifs at h
  · obtain ⟨I₂, hdots, h⟩ := bind_eq_ok_iff.mp h
    obtain ⟨I₁, hdot, hdotdot⟩ := bind_eq_ok_iff.mp hdots
    rw [hlink hd h, hlink hi hdotdot, hlink hi hdot, Inodes.addLink, update_of_ne hd, hinit]
  · rw [hlink hd h, hinit]

theorem names_of_entered {d : Fin n} {e : Dirent n} (h : entered full I m dp name ip = .ok I')
    (he : I'.Names d e) : I.Names d e ∨ d = dp ∧ e.inum = ip := by
  have hlink : ∀ {J J' : Inodes n} {why : FsPanic}, J.dirlink why full dp name ip = .ok J' →
      J'.Names d e → J.Names d e ∨ d = dp ∧ e.inum = ip := by
    intro J J' why hJ he
    obtain ⟨-, -, hJ⟩ := Inodes.writeEntry_of_dirlink hJ
    rw [Inodes.eq_of_writeEntry hJ, Inodes.names_fill] at he
    exact he.imp_right fun h ↦ ⟨h.1, by rw [h.2.1]⟩
  have hinit : (initialised I m ip).Names d e → I.Names d e :=
    (Inodes.names_congr (ents_initialised I m ip d)).mp
  rw [entered] at h
  split_ifs at h
  · obtain ⟨I₂, hdots, h⟩ := bind_eq_ok_iff.mp h
    obtain ⟨I₁, hdot, hdotdot⟩ := bind_eq_ok_iff.mp hdots
    obtain ⟨-, -, hdot⟩ := Inodes.writeEntry_of_dirlink hdot
    obtain ⟨-, -, hdotdot⟩ := Inodes.writeEntry_of_dirlink hdotdot
    refine (hlink h he).imp_left fun he ↦ hinit ?_
    rw [Inodes.eq_of_writeEntry hdotdot, Inodes.names_fill] at he
    have he := he.resolve_right fun h ↦ Inodes.not_proper_dotdot h.2.2
    rw [Inodes.eq_of_writeEntry hdot, Inodes.names_fill] at he
    exact Inodes.names_addLink.mp (he.resolve_right fun h ↦ Inodes.not_proper_dot h.2.2)
  · exact (hlink h he).imp_left hinit

variable {s s' : Fs n} {p : Fin nproc}

/-- What a step of `p` does to inode `x`: nothing; or it allocates or frees it; or it changes an
inode that `p` uses, and its entries only under the lock. -/
inductive Touched (s : Fs n) (p : Fin nproc) (s' : Fs n) (x : Fin n) : Prop
  | same (h : s'.inode x = s.inode x)
  | changed (use : x ∈ (s.proc p).pc.uses) (type : (s'.inode x).type = (s.inode x).type)
      (gen : (s'.inode x).gen = (s.inode x).gen)
      (ents : (s'.inode x).ents = (s.inode x).ents ∨ s.lock x = none ∨ x ∈ (s.proc p).pc.locks)
  | allocated (free : (s.inode x).type = none) (gen : (s'.inode x).gen = (s.inode x).gen)
  | freed (t : Pc n) (pc : (s.proc p).pc = .iput x t) (lock : s.lock x = none) (ref : s.ref x = 1)
      (proc : s'.proc p = (s.proc p).goto (.drop x t))

theorem Touched.of_addLink {j : Fin n} {c : ℤ} (huse : j ∈ (s.proc p).pc.uses)
    (hinode : s'.inode = s.inode.addLink j c) : s.Touched p s' x := by
  by_cases hx : x = j
  · subst hx
    refine .changed huse ?_ ?_ (.inl ?_)
    · rw [hinode, Inodes.type_addLink]
    · rw [hinode, Inodes.gen_addLink]
    · rw [hinode, Inodes.ents_addLink]
  · exact .same (by rw [hinode]; exact update_of_ne hx ..)

theorem Effect.touched [NeZero n] (he : s.Effect p s') (x : Fin n) : s.Touched p s' x := by
  cases he with
  | quiet hinode => exact .same (by rw [hinode])
  | found _ _ _ hinode => exact .same (by rw [hinode])
  | alloc m d name j _ _ _ _ hfree hinode =>
    by_cases hx : x = j
    · subst hx
      exact .allocated hfree (by rw [hinode, Inodes.ialloc, update_self])
    · exact .same (by rw [hinode, Inodes.ialloc, update_of_ne hx])
  | create full m d name j hpc hlock hinode =>
    obtain ⟨htype, hgen⟩ := same_of_entered hinode x
    by_cases hd : x = d
    · refine .changed ?_ htype hgen (.inr (.inr ?_))
      · rw [hpc, hd]
        exact List.mem_cons_self
      · rw [hpc, hd]
        exact List.mem_singleton_self _
    by_cases hj : x = j
    · refine .changed ?_ htype hgen (.inr (.inl (hj ▸ hlock)))
      rw [hpc, hj]
      exact List.mem_cons_of_mem _ (List.mem_singleton_self _)
    · exact .same (entered_of_ne hinode hd hj)
  | raise j new hpc _ _ hinode => exact .of_addLink (by rw [hpc]; exact List.mem_cons_self) hinode
  | link full j d name hpc hlock _ _ hinode =>
    by_cases hx : x = d
    · refine .changed ?_ ?_ ?_ (.inr (.inl (hx ▸ hlock)))
      · rw [hpc, hx]
        exact List.mem_cons_of_mem _ (List.mem_singleton_self _)
      · rw [Inodes.eq_of_writeEntry hinode, Inodes.type_setEnts]
      · rw [Inodes.eq_of_writeEntry hinode, Inodes.gen_setEnts]
    · exact .same (by rw [Inodes.eq_of_writeEntry hinode, Inodes.addEntry_of_ne hx])
  | lower j hpc _ hinode => exact .of_addLink (by rw [hpc]; exact List.mem_cons_self) hinode
  | erase d j off hpc _ _ _ hinode =>
    by_cases hx : x = d
    · refine .changed ?_ (by rw [hinode, type_erased]) (by rw [hinode, gen_erased]) (.inr (.inr ?_))
      · rw [hpc, hx]
        exact List.mem_cons_self
      · rw [hpc, hx]
        exact List.mem_singleton_self _
    · exact .same (by rw [hinode, erased_of_ne hx])
  | dec j hpc hinode => exact .of_addLink (by rw [hpc]; exact List.mem_cons_self) hinode
  | free j t hpc hlock _ href hinode hproc _ =>
    by_cases hx : x = j
    · subst hx
      exact .freed t hpc hlock href hproc
    · exact .same (by rw [hinode, Inodes.ifree, update_of_ne hx])

/-- Where a step leaves its process: outside of the sections with two locks, or between the two
locks of `unlink` or of `create`. -/
theorem Effect.next [NeZero n] (he : s.Effect p s') (hwf : (s.proc p).pc.Wf) :
    (s'.proc p).pc.Plain ∨
    (∃ d off e, (s'.proc p).pc = .unlinkIp d e.inum off ∧ s'.inode = s.inode ∧
      (s.inode d).ents[off]? = some (some e) ∧ Proper e.name) ∨
    ∃ m d name i, s'.proc p = (s.proc p).goto (.createNew m d name i) ∧
      (s.inode d).type = some .dir ∧ (s.inode d).dirlookup name = none ∧
      (s.inode i).type = none ∧ s'.inode = s.inode.ialloc i m.type ∧ s'.file = s.file := by
  cases he with
  | quiet _ _ _ _ hplain => exact .inl hplain
  | found d off e hinode _ _ _ _ hslot _ _ _ hnext =>
    exact hnext.imp_right fun h ↦ .inl ⟨d, off, e, h.1, hinode, hslot, h.2⟩
  | alloc m d name i _ _ hdir habsent hfree hinode hproc hfile =>
    exact .inr (.inr ⟨m, d, name, i, hproc, hdir, habsent, hfree, hinode, hfile⟩)
  | create _ _ _ _ _ _ _ _ hproc _ => exact .inl (by rw [hproc]; trivial)
  | raise _ _ _ _ _ _ hproc _ => exact .inl (by rw [hproc]; trivial)
  | link _ _ _ _ _ _ _ _ _ hproc _ => exact .inl (by rw [hproc]; trivial)
  | lower _ _ _ _ hproc _ => exact .inl (by rw [hproc]; trivial)
  | erase _ _ _ _ _ _ _ _ hproc _ => exact .inl (by rw [hproc]; trivial)
  | dec _ _ _ hproc _ => exact .inl (by rw [hproc]; trivial)
  | free i t hpc _ _ _ _ hproc _ => exact .inl (by rw [hproc]; exact (hpc ▸ hwf).plain_of_iput)

structure Base (s : Fs n) : Prop where
  wf : ∀ p, (s.proc p).pc.Wf
  ref : ∀ i, s.ref i = ∑ p, (s.proc p).holds i + s.opened i
  lock : ∀ i p, s.lock i = some p ↔ i ∈ (s.proc p).pc.locks
  valid : ∀ i, s.valid i = true → (s.inode i).type ≠ none
  linking : ∀ p i, (s.proc p).pc.linking = some i →
    (s.inode i).type ≠ none ∧ (s.inode i).type ≠ some .dir
  self : ∀ d e, s.inode.Names d e → e.inum ≠ d

namespace Base

theorem type_ne_none (h : s.Base) (hr : s.Ready i) : (s.inode i).type ≠ none :=
  hr.type.elim (h.valid i) id

theorem ne_of_mem_locks (h : s.Base) {j : Fin n} (hi : i ∈ (s.proc p).pc.locks)
    (hj : s.lock j = none) : j ≠ i := by
  rintro rfl
  rw [(h.lock _ p).mpr hi] at hj
  cases hj

variable {t : Pc n}

theorem sole_user (h : s.Base) (hpc : (s.proc p).pc = .iput i t) (href : s.ref i = 1) :
    i ∉ t.refs ∧ (s.proc p).cwd ≠ some i ∧
      (∀ q, q ≠ p → (s.proc q).holds i = 0) ∧ s.opened i = 0 := by
  have hsum := h.ref i
  have hp : (s.proc p).holds i = (s.proc p).cwd.toList.count i + (t.refs.count i + 1) := by
    rw [FsProc.holds, hpc, Pc.refs, List.count_cons_self]
  rw [href, ← Finset.add_sum_erase _ _ (Finset.mem_univ p), hp] at hsum
  have hcount : t.refs.count i = 0 := by omega
  have hcwd : (s.proc p).cwd.toList.count i = 0 := by omega
  have hrest : ∑ q ∈ Finset.univ.erase p, (s.proc q).holds i = 0 := by omega
  refine ⟨List.count_eq_zero.mp hcount, fun hc ↦ ?_, fun q hq ↦ ?_, by omega⟩
  · rw [hc, Option.toList_some, List.count_singleton_self] at hcwd
    cases hcwd
  · exact Finset.sum_eq_zero_iff.mp hrest q (Finset.mem_erase.mpr ⟨hq, Finset.mem_univ q⟩)

section Step

variable [NeZero n]

theorem wf_of_did (h : s.Base) (hd : s.Did p s') (q : Fin nproc) : (s'.proc q).pc.Wf := by
  by_cases hq : q = p
  · subst hq
    rcases hd.effect.next (h.wf q) with hplain | ⟨d, off, e, hpc, -⟩ | ⟨m, d, name, i, hproc, -⟩
    · exact .inl hplain
    · exact .inr (.inl ⟨d, e.inum, off, hpc⟩)
    · exact .inr (.inr ⟨m, d, name, i, by rw [hproc]; rfl⟩)
  · rw [hd.others q hq]
    exact h.wf q

theorem ref_of_did (h : s.Base) (hd : s.Did p s') (i : Fin n) :
    s'.ref i = ∑ q, (s'.proc q).holds i + s'.opened i := by
  have hsum := sum_add_of_eq_off (w := fun q ↦ (s.proc q).holds i)
    (v := fun q ↦ (s'.proc q).holds i) p fun q hq ↦ by rw [hd.others q hq]
  have hstep := hd.ref i
  have hold := h.ref i
  omega

theorem lock_of_did (h : s.Base) (hd : s.Did p s') (i : Fin n) (q : Fin nproc) :
    s'.lock i = some q ↔ i ∈ (s'.proc q).pc.locks := by
  by_cases hq : q = p
  · subst hq
    constructor
    · intro hi
      by_contra hnot
      rw [hd.freed i hnot] at hi
      split_ifs at hi with hold
      exact hold ((h.lock i q).mp hi)
    · intro hi
      rcases hd.held i hi with hi' | ⟨hold, hi'⟩
      · exact hi'
      · rw [hi', (h.lock i q).mpr hold]
  · rw [hd.others q hq, ← h.lock i q]
    by_cases hi : i ∈ (s'.proc p).pc.locks
    · -- The lock is `p`'s after the step, and was free or `p`'s before.
      have hnew : s'.lock i = some p := by
        rcases hd.held i hi with hi' | ⟨hold, hi'⟩
        · exact hi'
        · rw [hi', (h.lock i p).mpr hold]
      have hne : s.lock i ≠ some q := by
        intro hiq
        rcases hd.locked i hi with hold | hfree
        · rw [(h.lock i p).mpr hold, Option.some.injEq] at hiq
          exact hq hiq.symm
        · rw [hfree] at hiq
          cases hiq
      refine ⟨fun h' ↦ ?_, fun h' ↦ absurd h' hne⟩
      rw [hnew, Option.some.injEq] at h'
      exact absurd h'.symm hq
    · rw [hd.freed i hi]
      split_ifs with hold
      · rw [(h.lock i p).mpr hold, Option.some.injEq]
        exact ⟨fun h' ↦ (by cases h'), fun h' ↦ absurd h'.symm hq⟩
      · exact Iff.rfl

theorem valid_of_did (h : s.Base) (hd : s.Did p s') (i : Fin n) (hv : s'.valid i = true) :
    (s'.inode i).type ≠ none := by
  intro ht
  obtain ⟨hv, ht⟩ := hd.valid i hv ht
  exact h.valid i hv ht

theorem type_eq_of_holds (h : s.Base) (hd : s.Did p s') {q : Fin nproc}
    (hty : (s.inode i).type ≠ none) (hq : q ≠ p → 0 < (s.proc q).holds i)
    (hp : ∀ t, q = p → (s.proc p).pc = .iput i t → i ∈ t.refs) :
    (s'.inode i).type = (s.inode i).type := by
  cases hd.effect.touched i with
  | same hi => rw [hi]
  | changed _ hty' => exact hty'
  | allocated hnone => exact absurd hnone hty
  | freed t hpc _ href =>
    obtain ⟨ht, -, hothers, -⟩ := h.sole_user hpc href
    by_cases hqp : q = p
    · exact absurd (hp t hqp hpc) ht
    · exact absurd (hothers q hqp) (hq hqp).ne'

theorem linking_of_effect (he : s.Effect p s') (hi : (s'.proc p).pc.linking = some i) :
    (s.proc p).pc.linking = some i ∨
      s.Ready i ∧ (s.inode i).type ≠ some .dir ∧ (s'.inode i).type = (s.inode i).type := by
  cases he with
  | quiet _ _ hlink => exact .inl (hlink ▸ hi)
  | found _ _ _ _ _ _ _ _ _ _ hlink => exact .inl (hlink ▸ hi)
  | raise j new _ hr hty hinode hproc _ =>
    rw [hproc] at hi
    obtain rfl := Option.some.inj hi
    exact .inr ⟨hr, hty, by rw [hinode, Inodes.type_addLink]⟩
  | free j t hpc _ _ _ _ hproc _ =>
    rw [hproc] at hi
    rw [hpc]
    exact .inl hi
  | alloc _ _ _ _ _ _ _ _ _ _ hproc _ => rw [hproc] at hi; cases hi
  | create _ _ _ _ _ _ _ _ hproc _ => rw [hproc] at hi; cases hi
  | link _ _ _ _ _ _ _ _ _ hproc _ => rw [hproc] at hi; cases hi
  | lower _ _ _ _ hproc _ => rw [hproc] at hi; cases hi
  | erase _ _ _ _ _ _ _ _ hproc _ => rw [hproc] at hi; cases hi
  | dec _ _ _ hproc _ => rw [hproc] at hi; cases hi

theorem linking_of_did (h : s.Base) (hd : s.Did p s') (q : Fin nproc) (i : Fin n)
    (hi : (s'.proc q).pc.linking = some i) :
    (s'.inode i).type ≠ none ∧ (s'.inode i).type ≠ some .dir := by
  -- Unless the count has just been raised, `q` refers to `i` before the step.
  have hkeep : (s.proc q).pc.linking = some i →
      (s'.inode i).type ≠ none ∧ (s'.inode i).type ≠ some .dir := by
    intro hold
    obtain ⟨hnone, hdir⟩ := h.linking q i hold
    have hrefs := Pc.mem_refs_of_linking hold
    rw [h.type_eq_of_holds hd hnone (fun _ ↦ FsProc.holds_pos hrefs) fun t hqp hpc ↦ ?_]
    · exact ⟨hnone, hdir⟩
    · subst hqp
      rw [hpc] at hold
      change t.linking = some i at hold
      exact Pc.mem_refs_of_linking hold
  by_cases hq : q = p
  · subst hq
    rcases linking_of_effect hd.effect hi with hold | ⟨hr, hdir, hty⟩
    · exact hkeep hold
    · rw [hty]
      exact ⟨h.type_ne_none hr, hdir⟩
  · rw [hd.others q hq] at hi
    exact hkeep hi

theorem self_of_did (h : s.Base) (hd : s.Did p s') (d : Fin n) (e : Dirent n)
    (he : s'.inode.Names d e) : e.inum ≠ d := by
  have hsame : (s'.inode d).ents = (s.inode d).ents → e.inum ≠ d := fun hents ↦
    h.self d e ((Inodes.names_congr hents).mp he)
  cases hd.effect with
  | quiet hinode => exact hsame (by rw [hinode])
  | found _ _ _ hinode => exact hsame (by rw [hinode])
  | alloc m x name j _ _ _ _ _ hinode =>
    rw [hinode, Inodes.ialloc] at he
    by_cases hdj : d = j
    · rw [Inodes.Names, hdj, update_self] at he
      cases he.1
    · rw [Inodes.Names, update_of_ne hdj] at he
      exact h.self d e he
  | create full m x name j hpc hlock hinode =>
    rcases names_of_entered hinode he with he | ⟨rfl, rfl⟩
    · exact h.self d e he
    · exact h.ne_of_mem_locks (by rw [hpc]; exact List.mem_singleton_self _) hlock
  | raise j new _ _ _ hinode => exact hsame (by rw [hinode, Inodes.ents_addLink])
  | link full j x name hpc _ hdir _ hinode =>
    rw [Inodes.eq_of_writeEntry hinode, Inodes.names_fill] at he
    rcases he with he | ⟨rfl, rfl, -⟩
    · exact h.self d e he
    · -- A directory is not linked.
      rintro rfl
      exact (h.linking p j (by rw [hpc]; rfl)).2 hdir
  | lower j _ _ hinode => exact hsame (by rw [hinode, Inodes.ents_addLink])
  | erase x j off _ _ _ _ hinode =>
    rw [hinode, erased] at he
    split_ifs at he
    · exact h.self d e (Inodes.names_of_clear (Inodes.names_addLink.mp he))
    · exact h.self d e (Inodes.names_of_clear he)
  | dec j _ hinode => exact hsame (by rw [hinode, Inodes.ents_addLink])
  | free j t _ _ _ _ hinode =>
    rw [hinode, Inodes.ifree] at he
    by_cases hdj : d = j
    · rw [Inodes.Names, hdj, update_self] at he
      cases he.1
    · rw [Inodes.Names, update_of_ne hdj] at he
      exact h.self d e he

theorem of_did (h : s.Base) (hd : s.Did p s') : s'.Base :=
  ⟨h.wf_of_did hd, h.ref_of_did hd, h.lock_of_did hd, h.valid_of_did hd, h.linking_of_did hd,
    h.self_of_did hd⟩

omit [NeZero n] in
theorem ref_pos_of_drop (h : s.Base) (hpc : (s.proc p).pc = .drop i t) : 0 < s.ref i := by
  have hp : 0 < (s.proc p).holds i := FsProc.holds_pos (by rw [hpc]; exact List.mem_cons_self)
  have hle : (s.proc p).holds i ≤ ∑ q, (s.proc q).holds i :=
    Finset.single_le_sum (f := fun q ↦ (s.proc q).holds i) (fun _ _ ↦ Nat.zero_le _)
      (Finset.mem_univ p)
  rw [h.ref i]
  omega

theorem runs_act (h : s.Base) (a : FsAct) : ∃ p, s.Runs p (s.act a) ∧ ∀ s', s.act a = .ok s' →
    (∃ full, a = .go p full) ∨ s.looksUp p = none ∧ s.addsTo p = none := by
  cases a with
  | call p c =>
    rw [act]
    split
    · obtain ⟨q, hr, hq⟩ := runs_enter c ‹_›
      refine ⟨q, hr, fun s' hs ↦ .inr ?_⟩
      rw [looksUp, addsTo]
      rcases hq s' hs with hq | hq <;> rw [hq] <;> exact ⟨rfl, rfl⟩
    · exact ⟨p, runs_stop (by decide), fun s' hs ↦ by cases hs⟩
  | go p full =>
    exact ⟨p, runs_go full (h.wf p) (fun _ _ ↦ h.ref_pos_of_drop), fun _ _ ↦ .inl ⟨full, rfl⟩⟩

theorem exists_did (h : s.Base) (ha : s.act a = .ok s') :
    ∃ p, s.Did p s' ∧ ((∃ full, a = .go p full) ∨ s.looksUp p = none ∧ s.addsTo p = none) := by
  obtain ⟨p, hr, hq⟩ := h.runs_act a
  exact ⟨p, (hr.of_ok ha).1, hq s' ha⟩

end Step

variable [NeZero n]

theorem proc_boot (I : Inodes n) (p : Fin nproc) : (boot I).proc p =
    if p = initproc then ⟨some rootino, fun _ ↦ none, .ret 0⟩
    else ⟨none, fun _ ↦ none, .dead⟩ := by
  rw [boot]
  dsimp only
  rw [update_apply]

theorem of_boot (hself : ∀ d e, I.Names d e → e.inum ≠ d) : (boot I).Base := by
  have hidle : ∀ p, Pc.Idle ((boot I).proc p).pc := fun p ↦ by
    rw [proc_boot]
    split_ifs
    · exact Pc.idle_ret 0
    · exact Pc.idle_dead
  refine ⟨fun p ↦ .inl (hidle p).plain, fun i ↦ ?_, fun i p ↦ ?_, fun i hv ↦ ?_, fun p i hi ↦ ?_,
    hself⟩
  · have hopened : (boot I).opened i = 0 :=
      Finset.sum_eq_zero fun f _ ↦ if_neg fun hf ↦ (lt_irrefl 0 hf.1).elim
    have hholds : ∀ p, ((boot I).proc p).holds i =
        if p = initproc then if i = rootino then 1 else 0 else 0 := fun p ↦ by
      rw [FsProc.holds, (hidle p).refs, proc_boot]
      split_ifs with hp hi
      · rw [hi]
        simp
      · exact List.count_eq_zero.mpr (by simpa using hi)
      · rfl
    rw [hopened, Finset.sum_congr rfl fun p _ ↦ hholds p, Finset.sum_ite_eq' Finset.univ initproc,
      if_pos (Finset.mem_univ _)]
    rfl
  · rw [(hidle p).locks]
    constructor <;> intro h <;> cases h
  · cases hv
  · rw [(hidle p).linking] at hi
    cases hi

end Base

theorem act_of_step [NeZero n] (h : (fileSystem n).step s a = some s') : s.act a = .ok s' :=
  toOption_eq_some_iff.mp h

/-- **Reference counts and locks are right in every reachable state.** -/
theorem base_of_reachable [NeZero n] (h : (fileSystem n).Reachable s) : s.Base := by
  refine h.invariant (fun s hs ↦ ?_) fun s a s' hI hs ↦ ?_
  · obtain ⟨I, hI, rfl⟩ := hs
    exact .of_boot fun d e he ↦ hI.self he
  · obtain ⟨p, hd, -⟩ := hI.exists_did (act_of_step hs)
    exact hI.of_did hd

end Fs

end OperatingSystems
