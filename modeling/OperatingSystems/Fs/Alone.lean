import OperatingSystems.Fs.Dangling

/-!
# A call that runs alone

A process in a call among `open`, `link`, `unlink`, `mkdir`, `mknod`, `chdir` and `exec`, while
nobody else holds an inode lock, never waits: it comes to the end of the call, unless the kernel
panics. The exception is `link`: `dirlink` drops the inode that it finds under the new name while it
has the directory locked, and the two are the same when the new name is `"."`.

`namei` is path resolution in one go. It says beforehand whether a call of `link` will end up there.
-/

namespace OperatingSystems

open Function

variable {n : ℕ}

namespace Fs

variable {s s' : Fs n} {p : Fin nproc} {full : Bool}

/-! ## Current directories -/

/-- A process without a current directory has exited or is about to. -/
def Rooted (f : Fin nproc → FsProc n) : Prop := ∀ q, (f q).cwd = none → (f q).pc.Leaving

theorem rooted_of_reachable [NeZero n] (h : (fileSystem n).Reachable s) : Rooted s.proc := by
  refine (h.invariant (I := fun s ↦ s.Base ∧ Rooted s.proc) (fun s hs ↦ ?_)
    fun s a s' hI hs ↦ ?_).2
  · refine ⟨base_of_reachable (.init hs), ?_⟩
    obtain ⟨I, -, rfl⟩ := hs
    intro q hq
    rw [Base.proc_boot] at hq ⊢
    split_ifs at hq ⊢
    trivial
  · obtain ⟨p, hr, -⟩ := hI.1.runs_act a
    obtain ⟨hd, hstays⟩ := hr.of_ok (act_of_step hs)
    refine ⟨hI.1.of_did hd, fun q hc ↦ ?_⟩
    by_cases hq : q = p
    · subst hq
      exact (hstays hc).elim (fun h ↦ h.2 (hI.2 q h.1)) id
    · rw [hd.others q hq] at hc ⊢
      exact hI.2 q hc

end Fs

/-! ## Program counters of a call -/

/-- Callers other than `link`. -/
def Caller.Steady : Caller n → Prop
  | .linkOld _ | .linkNew _ => False
  | _ => True

/-- An upper bound for the sections that a caller goes through behind `namex`. -/
def Caller.rank : Caller n → ℕ
  | .exec reads _ => reads + 3
  | _ => 7

namespace Pc

/-- In a call other than `exit`, not before the `dirlink` of `link`, not between the two locks of
`unlink` or `create`; what is put is not locked. -/
def Steady : Pc n → Prop
  | .dead | .exit | .linkLock _ _ | .linkDir _ _ _ | .unlinkIp _ _ _ | .createNew _ _ _ _ => False
  | .namex k _ | .walk k _ _ => k.Steady
  | .iput i t => i ∉ t.locks ∧ t.Steady
  | .drop _ t => t.Steady
  | _ => True

def rank : Pc n → ℕ
  | .namex k path => 3 * path.length + k.rank + 4
  | .walk k _ path => 3 * path.length + k.rank + 3
  | .iput _ t => t.rank + 2
  | .drop _ t => t.rank + 1
  | .openLock _ _ | .chdirLock _ | .linkBad _ | .unlinkBad _ | .unlinkDec _ | .createFound _ _
  | .created _ _ => 3
  | .execLock _ reads _ => reads + 3
  | .linkUndo _ _ | .unlinkIp _ _ _ | .createNew _ _ _ _ => 6
  | .unlinkDir _ _ | .createDir _ _ _ => 7
  | .ret _ | .dead | .linkLock _ _ | .linkDir _ _ _ | .exit => 0

end Pc

namespace Caller

variable {k : Caller n} (hk : k.Steady) (ip : Fin n) (name : Bytes)

include hk

theorem steady_found : (k.found ip name).Steady := by
  cases k <;> first | exact hk.elim | trivial

theorem rank_found : (k.found ip name).rank ≤ k.rank := by
  cases k <;> first | exact hk.elim | (simp only [found, Pc.rank, rank]; omega)

theorem steady_fail : k.fail.Steady := by
  cases k <;> first | exact hk.elim | trivial

theorem rank_fail : k.fail.rank = 0 := by
  cases k <;> first | exact hk.elim | rfl

omit hk in
theorem mem_locks_fail (i : Fin n) : i ∉ k.fail.locks := by
  rw [locks_fail]
  exact List.not_mem_nil

end Caller

/-! ## Sections that do not wait -/

/-- The kernel panics. Two of the panics do not count: `create` comes to them only behind an `iput`
that `dirlink` calls while both inodes are locked, which the model leaves out. -/
def FsStop.Halts : FsStop → Prop
  | .blocked => False
  | .panic why => why ≠ .createDots ∧ why ≠ .createDirlink

instance : DecidablePred FsStop.Halts
  | .blocked => inferInstanceAs (Decidable False)
  | .panic _ => inferInstanceAs (Decidable (_ ∧ _))

namespace Fs

variable {s s' : Fs n} {p : Fin nproc} {full : Bool} {r : ℕ} {i ip dp : Fin n}
  {f : Fs n → Except FsStop (Fs n)} {k : Caller n} {path name : Bytes} {m : Make}

/-- The locks that `p` has yet to take are not among those it holds. -/
inductive Good (s : Fs n) (p : Fin nproc) : Prop
  | steady (h : (s.proc p).pc.Steady)
  | unlink {dp ip : Fin n} {off : ℕ} (hpc : (s.proc p).pc = .unlinkIp dp ip off) (hne : ip ≠ dp)
  | create {m : Make} {dp ip : Fin n} {name : Bytes} (hpc : (s.proc p).pc = .createNew m dp name ip)
      (hne : ip ≠ dp) (hents : (s.inode ip).ents = [])
      (habsent : (s.inode dp).dirlookup name = none)

/-- The section is not blocked, and behind it fewer than `r` are left. -/
abbrev Fine (p : Fin nproc) (r : ℕ) : Except FsStop (Fs n) → Prop :=
  Outcome (fun s ↦ (s.proc p).pc.rank < r ∧ s.Good p) FsStop.Halts

theorem fine_setPc {pc : Pc n} (hr : pc.rank < r) (hpc : pc.Steady) :
    Fine p r (.ok (s.setPc p pc)) := by
  have h : ((s.setPc p pc).proc p).pc = pc := by
    rw [proc_setPc]
    rfl
  exact .ok ⟨h.symm ▸ hr, .steady (h.symm ▸ hpc)⟩

theorem fine_ilock (hlock : s.lock i = none) (hf : Fine p r (f (s.load i))) :
    Fine p r (s.ilock i >>= f) :=
  .ilock (by decide) (fun hl ↦ absurd hlock hl) (fun _ ↦ (by decide)) fun _ ↦ hf

theorem fine_iget (hf : Fine p r (f (s.got i))) : Fine p r (s.iget i >>= f) :=
  .iget (by decide) hf

theorem fine_put {c : ℤ} (hr : 2 < r) : Fine p r (.ok (s.setPc p (.iput i (.ret c)))) :=
  fine_setPc hr ⟨List.not_mem_nil, trivial⟩

theorem fine_openFile (ip : Fin n) : Fine p 3 (.ok (s.openFile p ip)) := by
  rw [openFile]
  split
  · refine .ok ⟨?_, .steady ?_⟩
    all_goals dsimp only; rw [update_self]
    · exact Nat.succ_pos _
    · trivial
  · exact fine_put (by omega)

theorem fine_namex [NeZero n] (hcwd : (s.proc p).cwd ≠ none) (hk : k.Steady) :
    Fine p (Pc.namex k path).rank (s.namex p k path) := by
  rw [namex]
  split_ifs
  · exact fine_iget (fine_setPc (Nat.lt_succ_self _) hk)
  · split
    · exact absurd ‹_› hcwd
    · exact fine_setPc (Nat.lt_succ_self _) hk

theorem fine_walk (hlock : s.lock ip = none) (hk : k.Steady) :
    Fine p (Pc.walk k ip path).rank (s.walk p k ip path) := by
  have hfail : ∀ t : Fs n, Fine p (Pc.walk k ip path).rank (.ok (t.setPc p (.iput ip k.fail))) := by
    refine fun t ↦ fine_setPc ?_ ⟨k.mem_locks_fail ip, Caller.steady_fail hk⟩
    have hrank := Caller.rank_fail hk
    simp only [Pc.rank]
    omega
  have hfound : ∀ (t : Fs n) (name : Bytes),
      Fine p (Pc.walk k ip path).rank (.ok (t.setPc p (k.found ip name))) := by
    refine fun t name ↦ fine_setPc ?_ (Caller.steady_found hk ip name)
    have hrank := Caller.rank_found hk ip name
    rw [Pc.rank]
    omega
  rw [walk]
  split
  · split_ifs
    · exact hfail _
    · exact hfound _ _
  · have hlt := length_lt_of_skipelem ‹_›
    refine fine_ilock hlock ?_
    split_ifs
    · exact hfail _
    · exact hfound _ _
    · split
      · exact hfail _
      · refine fine_iget (fine_setPc ?_ ⟨List.not_mem_nil, hk⟩)
        simp only [Pc.rank]
        omega

theorem fine_unlinkDir (hb : s.Base) (hlock : s.lock dp = none) :
    Fine p 7 (s.unlinkDir p dp name) := by
  refine fine_ilock hlock ?_
  split_ifs with hname hdir
  · exact fine_put (by omega)
  · exact .error (by decide)
  · split
    · exact fine_put (by omega)
    · refine fine_iget (.ok ?_)
      rw [proc_setPc]
      refine ⟨Nat.lt_succ_self _, .unlink (by rw [proc_setPc]; rfl) ?_⟩
      -- The name is a proper one, so it is not the directory's own.
      obtain ⟨hslot, rfl⟩ := slot_of_dirlookup ‹_›
      rw [not_or] at hname
      exact hb.self dp _ ⟨List.mem_of_getElem? hslot, hname⟩

theorem fine_unlinkIp {off : ℕ} (hlock : s.lock ip = none) (hne : ip ≠ dp) :
    Fine p 6 (s.unlinkIp p dp ip off) := by
  refine fine_ilock hlock ?_
  split_ifs
  · exact .error (by decide)
  · exact fine_setPc (Nat.lt_succ_self _) ⟨fun h ↦ hne (List.mem_singleton.mp h), trivial⟩
  · exact fine_setPc (Nat.lt_succ_self _) ⟨fun h ↦ hne (List.mem_singleton.mp h).symm, trivial⟩

theorem fine_createDir (hlock : s.lock dp = none) : Fine p 7 (s.createDir p m dp name) := by
  refine fine_ilock hlock ?_
  split_ifs with hdir
  · exact .error (by decide)
  · split
    · refine fine_iget (fine_setPc ?_ ⟨List.not_mem_nil, trivial⟩)
      exact (by decide : 5 < 7)
    · rename_i habsent
      split
      · exact .error (by decide)
      · rename_i i hfree
        have hnone : (s.inode i).type = none :=
          Option.isNone_iff_eq_none.mp
            (List.find?_some (p := fun i ↦ (s.inode i).type.isNone) hfree)
        have hne : i ≠ dp := by
          rintro rfl
          rw [not_not] at hdir
          have hsome : some FileType.dir = none := hdir.symm.trans hnone
          cases hsome
        refine fine_iget (.ok ?_)
        rw [proc_setPc]
        refine ⟨Nat.lt_succ_self _, .create (by rw [proc_setPc]; rfl) hne ?_ ?_⟩
        · change (update s.inode i _ i).ents = []
          rw [update_self]
        · change Inode.dirlookup (update s.inode i _ dp) name = none
          rw [update_of_ne hne.symm]
          exact habsent

theorem halts_entered {I : Inodes n} (hne : ip ≠ dp) (hents : (I ip).ents = [])
    (habsent : (I dp).dirlookup name = none) :
    Outcome (fun _ ↦ True) FsStop.Halts (entered full I m dp name ip) := by
  have hlink : ∀ {J : Inodes n} {why : FsPanic} {d i : Fin n} {name : Bytes},
      (J d).dirlookup name = none →
        Outcome (· = J.addEntry d name i) FsStop.Halts (J.dirlink why full d name i) := fun h ↦
    .dirlink (by decide) (by decide) (fun _ ↦ (by decide)) fun h' ↦ absurd h h'
  have hnil : ∀ {J : Inodes n} {d : Fin n} {name : Bytes}, (J d).ents = [] →
      (J d).dirlookup name = none := fun h ↦ by
    rw [Inode.dirlookup, h]
    rfl
  rw [entered]
  split_ifs
  · refine .bind (Q := fun J ↦ (J dp).ents = (I dp).ents) (.bind (hlink (hnil ?_)) fun J hJ ↦ ?_)
      fun J hJ ↦ ?_
    · rw [Inodes.ents_addLink, ents_initialised, hents]
    · have hJip : (J ip).ents = [some ⟨ip, dot, (J ip).gen⟩] := by
        rw [hJ, Inodes.ents_setEnts_self, Inodes.gen_setEnts, Inodes.ents_addLink, ents_initialised,
          hents]
        rfl
      refine (hlink ?_).imp fun K hK ↦ ?_
      · rw [Inode.dirlookup, hJip]
        rfl
      · rw [hK, Inodes.addEntry_of_ne hne.symm, hJ, Inodes.addEntry_of_ne hne.symm,
          Inodes.ents_addLink, ents_initialised]
    · refine (hlink ?_).imp fun _ _ ↦ trivial
      rw [Inode.dirlookup, hJ]
      exact habsent
  · refine (hlink ?_).imp fun _ _ ↦ trivial
    rw [Inode.dirlookup, ents_initialised]
    exact habsent

theorem fine_createNew (hlock : s.lock ip = none) (hne : ip ≠ dp) (hents : (s.inode ip).ents = [])
    (habsent : (s.inode dp).dirlookup name = none) :
    Fine p 6 (s.createNew p full m dp name ip) := by
  refine fine_ilock hlock (.bind (halts_entered hne hents habsent) fun I _ ↦ ?_)
  exact fine_setPc (Nat.lt_succ_self _) ⟨fun h ↦ hne (List.mem_singleton.mp h).symm, trivial⟩

theorem fine_go [NeZero n] (hb : s.Base) (hcwd : (s.proc p).cwd ≠ none)
    (hfree : ∀ i, i ∉ (s.proc p).pc.locks → s.lock i = none) (hgood : s.Good p)
    (hret : ∀ c, (s.proc p).pc ≠ .ret c) : Fine p (s.proc p).pc.rank (s.go p full) := by
  cases hgood with
  | unlink hpc hne =>
    rw [go, hpc]
    exact fine_unlinkIp (hfree _ (by rw [hpc]; exact fun h ↦ hne (List.mem_singleton.mp h))) hne
  | create hpc hne hents habsent =>
    rw [go, hpc]
    exact fine_createNew (hfree _ (by rw [hpc]; exact fun h ↦ hne (List.mem_singleton.mp h))) hne
      hents habsent
  | steady h =>
    rw [go]
    cases hpc : (s.proc p).pc with
    | ret c => exact absurd hpc (hret c)
    | dead => rw [hpc] at h; exact h.elim
    | exit => rw [hpc] at h; exact h.elim
    | linkLock ip new => rw [hpc] at h; exact h.elim
    | linkDir ip dp name => rw [hpc] at h; exact h.elim
    | unlinkIp dp ip off => rw [hpc] at h; exact h.elim
    | createNew m dp name ip => rw [hpc] at h; exact h.elim
    | namex k path => rw [hpc] at h; exact fine_namex hcwd h
    | walk k ip path =>
      have hlock : s.lock ip = none := hfree ip (by rw [hpc]; exact List.not_mem_nil)
      rw [hpc] at h
      exact fine_walk hlock h
    | iput i t =>
      rw [hpc] at h
      have hlock : s.lock i = none := hfree i (by rw [hpc]; exact h.1)
      change Fine p _ (s.iputSection i >>= _)
      rw [iputSection, if_neg (by rw [hlock]; exact Bool.false_ne_true)]
      split_ifs
      · exact fine_setPc (Nat.lt_succ_self _) h.2
      · exact fine_setPc (Nat.lt_succ_self _) h.2
    | drop i t =>
      rw [hpc] at h
      exact fine_setPc (Nat.lt_succ_self _) h
    | openLock ip omode =>
      refine fine_ilock (hfree ip (by rw [hpc]; exact List.not_mem_nil)) ?_
      split_ifs
      · exact fine_put (Nat.lt_succ_self _)
      · exact fine_openFile ip
    | execLock ip reads ok =>
      refine fine_ilock (hfree ip (by rw [hpc]; exact List.not_mem_nil)) ?_
      split
      · exact fine_setPc (Nat.lt_succ_self _) trivial
      · exact fine_put (by rw [Pc.rank]; omega)
    | chdirLock ip =>
      refine fine_ilock (hfree ip (by rw [hpc]; exact List.not_mem_nil)) ?_
      split_ifs
      · exact fine_put (Nat.lt_succ_self _)
      · split
        · exact absurd ‹_› hcwd
        · refine .ok ⟨?_, .steady ?_⟩
          all_goals dsimp only; rw [update_self]
          · exact Nat.lt_succ_self _
          · exact ⟨List.not_mem_nil, trivial⟩
    | linkUndo ip dp => exact fine_setPc (Nat.lt_succ_self _) ⟨List.not_mem_nil, trivial⟩
    | linkBad ip =>
      refine fine_ilock (hfree ip (by rw [hpc]; exact List.not_mem_nil)) ?_
      exact fine_put (Nat.lt_succ_self _)
    | unlinkDir dp name =>
      exact fine_unlinkDir hb (hfree dp (by rw [hpc]; exact List.not_mem_nil))
    | unlinkBad dp => exact fine_put (Nat.lt_succ_self _)
    | unlinkDec ip => exact fine_put (Nat.lt_succ_self _)
    | createDir m dp name => exact fine_createDir (hfree dp (by rw [hpc]; exact List.not_mem_nil))
    | createFound m ip =>
      refine fine_ilock (hfree ip (by rw [hpc]; exact List.not_mem_nil)) ?_
      split_ifs
      · exact fine_openFile ip
      · exact fine_put (Nat.lt_succ_self _)
    | created m ip =>
      cases m with
      | «open» => exact fine_openFile ip
      | mkdir => exact fine_put (Nat.lt_succ_self _)
      | mknod major minor => exact fine_put (Nat.lt_succ_self _)

/-! ## The end of a call -/

/-- However often `p` alone goes on, it is never blocked, and it gets out of the kernel unless the
kernel panics. -/
inductive Ends [NeZero n] (p : Fin nproc) : Fs n → Prop
  | ret {s : Fs n} {r : ℤ} (h : (s.proc p).pc = .ret r) : Ends p s
  | step {s : Fs n} (hok : ∀ full s', s.go p full = .ok s' → Ends p s')
      (herror : ∀ full e, s.go p full = .error e → e.Halts) : Ends p s

/-- Nobody but `p` holds an inode lock. -/
def Alone (s : Fs n) (p : Fin nproc) : Prop := ∀ q, q ≠ p → (s.proc q).pc.locks = []

theorem Alone.lock_eq_none (h : s.Alone p) (hb : s.Base) (hi : i ∉ (s.proc p).pc.locks) :
    s.lock i = none := by
  cases hlock : s.lock i with
  | none => rfl
  | some q =>
    have hmem := (hb.lock i q).mp hlock
    by_cases hq : q = p
    · exact absurd (hq ▸ hmem) hi
    · rw [h q hq] at hmem
      cases hmem

theorem Alone.of_go [NeZero n] (h : s.Alone p) (hb : s.Base) (hs : s.go p full = .ok s') :
    s'.Alone p := by
  have hd := ((runs_go full (hb.wf p) fun _ _ ↦ hb.ref_pos_of_drop).of_ok hs).1
  intro q hq
  rw [hd.others q hq]
  exact h q hq

theorem reachable_of_go [NeZero n] (h : (fileSystem n).Reachable s) (hs : s.go p full = .ok s') :
    (fileSystem n).Reachable s' := by
  refine h.step (a := .go p full) ?_
  change (s.go p full).toOption = some s'
  rw [hs]
  rfl

theorem Good.not_leaving (h : s.Good p) : ¬(s.proc p).pc.Leaving := by
  have hsteady : ∀ pc : Pc n, pc.Steady → ¬pc.Leaving := by
    intro pc
    induction pc with
    | iput i t ih => exact fun hs ↦ ih hs.2
    | drop i t ih => exact fun hs ↦ ih hs
    | dead => exact fun hs _ ↦ hs
    | _ => exact fun _ hl ↦ hl
  cases h with
  | steady h => exact hsteady _ h
  | unlink hpc => rw [hpc]; exact id
  | create hpc => rw [hpc]; exact id

theorem ends_of_good [NeZero n] (h : (fileSystem n).Reachable s) (halone : s.Alone p)
    (hgood : s.Good p) : s.Ends p := by
  -- By induction on the sections that are left.
  induction hr : (s.proc p).pc.rank using Nat.strong_induction_on generalizing s with
  | _ r ih =>
    subst hr
    by_cases hret : ∃ c, (s.proc p).pc = .ret c
    · exact .ret hret.choose_spec
    · rw [not_exists] at hret
      have hb := base_of_reachable h
      have hcwd : (s.proc p).cwd ≠ none := fun hc ↦
        hgood.not_leaving (rooted_of_reachable h p hc)
      have hfine : ∀ full, Fine p (s.proc p).pc.rank (s.go p full) := fun full ↦
        fine_go hb hcwd (fun i ↦ halone.lock_eq_none hb) hgood hret
      refine .step (fun full s' hs ↦ ?_) fun full e he ↦ (hfine full).of_error he
      obtain ⟨hlt, hgood'⟩ := (hfine full).of_ok hs
      exact ih _ hlt (reachable_of_go h hs) (halone.of_go hb hs) hgood' rfl

end Fs

end OperatingSystems
