import OperatingSystems.Proc.Moves

/-!
# The changes that a critical section is made of

A critical section makes its changes to the table one after the other, and what later invariants say
can be checked after each of them. `Change` lists them, with what is known when they are made. Every
step of the machine is a sequence of such changes, a `kill`, or the end of a `fork` that failed.
-/

namespace OperatingSystems

namespace ProcTable

variable {κ : Type} [DecidableEq κ] {s s' : ProcTable κ} {c : κ} {i j : Fin nproc}

def allocated (s : ProcTable κ) (i : Fin nproc) : ProcTable κ :=
  ({ s with nextpid := s.nextpid + 1, allocs := s.allocs + 1 }.setSlot i fun p ↦
    { p with state := .embryo, pid := s.nextpid, pc := .user, gen := s.allocs }).note
      (.alloc s.allocs s.nextpid)

omit [DecidableEq κ] in
theorem slots_allocated (k : Fin nproc) : (s.allocated i).slots k =
    if k = i then { s.slots k with
      state := .embryo, pid := s.nextpid, pc := .user, gen := s.allocs } else s.slots k := by
  rw [allocated, slots_note, slots_setSlot]

/-- One change to the table. An event is given by the slots that it is about. -/
inductive Change (s : ProcTable κ) : ProcTable κ → Prop
  | wake (ch : ProcChan) : Change s (s.wakeup1 ch)
  | fault (j : Fin nproc) (run : (s.slots j).state = .running) :
      Change s (s.setSlot j fun p ↦ { p with killed := true })
  | goto (j : Fin nproc) (pc : ProcPc) (run : (s.slots j).state = .running) :
      Change s (s.setSlot j fun p ↦ { p with pc := pc })
  | waitNone (g : ℕ) : Change s (s.note (.waitNone g))
  | yield (c : κ) (j : Fin nproc) (cpu : s.cpu c = some j) :
      Change s ((s.setSlot j fun p ↦ { p with state := .runnable }).setCpu c none)
  | sleep (c : κ) (j : Fin nproc) (a : ℕ) (cpu : s.cpu c = some j) :
      Change s ((s.setSlot j fun p ↦
        { p with state := .sleeping, chan := some (.addr a) }).setCpu c none)
  /-- A process sleeps in `wait`: no child of it has exited. -/
  | sleepWait (c : κ) (j : Fin nproc) (cpu : s.cpu c = some j)
      (children : ∀ i, (s.slots i).parent = some j → (s.slots i).state ≠ .zombie) :
      Change s ((s.setSlot j fun p ↦
        { p with state := .sleeping, chan := some (.proc j), pc := .waiting }).setCpu c none)
  | sched (c : κ) (j : Fin nproc) (cpu : s.cpu c = none) (ready : (s.slots j).state = .runnable) :
      Change s ((s.setSlot j fun p ↦ { p with state := .running, chan := none }).setCpu c (some j))
  | alloc (i : Fin nproc) (free : (s.slots i).state = .unused) :
      Change s (s.allocated i)
  | born (j i : Fin nproc) (g : ℕ) (run : (s.slots j).state = .running)
      (embryo : (s.slots i).state = .embryo) (gen : (s.slots j).gen = g) :
      Change s ((s.setSlot i fun p ↦ { p with state := .runnable, parent := some j }).note
        (.fork g (s.slots i).gen (s.slots i).pid))
  /-- `exit` begins. -/
  | exiting (j : Fin nproc) (run : (s.slots j).state = .running) (ne : j ≠ initproc) :
      Change s (s.note (.exit (s.slots j).gen))
  | abandon (j : Fin nproc) (ne : j ≠ initproc) (event : .exit (s.slots j).gen ∈ s.log) :
      Change s (s.abandon j)
  /-- `exit` ends: nobody is a child of the process any more, and its parent does not sleep in
  `wait`. -/
  | exit (c : κ) (j : Fin nproc) (cpu : s.cpu c = some j) (ne : j ≠ initproc)
      (event : .exit (s.slots j).gen ∈ s.log) (childless : ∀ i, (s.slots i).parent ≠ some j)
      (awake : ∀ p, (s.slots j).parent = some p → (s.slots p).state = .sleeping →
        (s.slots p).chan ≠ some (.proc p)) :
      Change s ((s.setSlot j fun p ↦ { p with state := .zombie }).setCpu c none)
  | reap (j i : Fin nproc) (g : ℕ) (run : (s.slots j).state = .running)
      (zombie : (s.slots i).state = .zombie) (parent : (s.slots i).parent = some j)
      (gen : (s.slots j).gen = g) :
      Change s ((s.setSlot i fun p ↦
        { p with state := .unused, pid := 0, parent := none, killed := false }).note
          (.wait g (s.slots i).gen (s.slots i).pid))

abbrev Changes (s s' : ProcTable κ) : Prop := Relation.ReflTransGen Change s s'

theorem Changes.preserves {P : ProcTable κ → Prop} (hP : ∀ s s', Change s s' → P s → P s')
    (h : Changes s s') (hs : P s) : P s' := by
  induction h with
  | refl => exact hs
  | tail _ hlast ih => exact hP _ _ hlast ih

/-! ## The sections -/

omit [DecidableEq κ] in
theorem zombieChild_spec (h : s.zombieChild j = some i) :
    (s.slots i).parent = some j ∧ (s.slots i).state = .zombie := by
  have hi := of_first h
  rwa [Bool.and_eq_true, decide_eq_true_eq, decide_eq_true_eq] at hi

omit [DecidableEq κ] in
theorem not_zombie_of_zombieChild (h : s.zombieChild j = none) (i : Fin nproc)
    (hi : (s.slots i).parent = some j) : (s.slots i).state ≠ .zombie := by
  intro hz
  have hno := of_first_eq_none h i
  rw [hi, hz] at hno
  simp at hno

theorem changes_fork (hrun : (s.slots j).state = .running) : Changes s (s.fork j) := by
  rw [fork]
  split
  · exact .refl
  · next i t ht =>
    rw [allocproc] at ht
    split at ht
    · cases ht
    · next i' hi =>
      cases ht
      have hfree : (s.slots i).state = .unused := of_decide_eq_true (of_first hi)
      have hji : j ≠ i := by
        rintro rfl
        rw [hrun] at hfree
        cases hfree
      refine .tail (.single (.alloc i hfree)) (.goto j (.forking i) ?_)
      rw [slots_allocated, if_neg hji]
      exact hrun

theorem changes_waitScan (hrun : (s.slots j).state = .running) (hc : s.cpu c = some j) :
    Changes s (s.waitScan c j) := by
  have huser : Change s (s.setSlot j fun p ↦ { p with pc := .user }) := .goto j .user hrun
  rw [waitScan]
  split
  · next i hi =>
    obtain ⟨hparent, hzombie⟩ := zombieChild_spec hi
    have hij : i ≠ j := by
      rintro rfl
      rw [hrun] at hzombie
      cases hzombie
    have hslot : (s.setSlot j fun p ↦ { p with pc := .user }).slots i = s.slots i := by
      rw [slots_setSlot, if_neg hij]
    have hme : (s.setSlot j fun p ↦ { p with pc := .user }).slots j
        = { s.slots j with pc := .user } := by
      rw [slots_setSlot, if_pos rfl]
    refine .tail (.single huser) ?_
    rw [← hslot] at hparent hzombie ⊢
    exact .reap j i (s.slots j).gen (by rw [hme]; exact hrun) hzombie hparent (by rw [hme])
  · next hnone =>
    split
    · exact .tail (.single huser) (.waitNone _)
    · exact .single (.sleepWait c j hc (not_zombie_of_zombieChild hnone))

theorem changes_sched (hc : s.cpu c = none) (hj : (s.slots j).state = .runnable) :
    Changes s (s.sched c j) := by
  have hsched := Change.sched c j hc hj
  rw [sched]
  split
  · refine .trans (.single hsched) (changes_waitScan ?_ (Function.update_self ..))
    rw [slots_setCpu, slots_setSlot, if_pos rfl]
  · exact .single hsched

theorem changes_forkDone (hrun : (s.slots j).state = .running)
    (hi : (s.slots i).state = .embryo) : Changes s (s.forkDone j i true) := by
  have hij : i ≠ j := by
    rintro rfl
    rw [hrun] at hi
    cases hi
  have hslot : (s.setSlot j fun p ↦ { p with pc := .user }).slots i = s.slots i := by
    rw [slots_setSlot, if_neg hij]
  have hme : (s.setSlot j fun p ↦ { p with pc := .user }).slots j
      = { s.slots j with pc := .user } := by
    rw [slots_setSlot, if_pos rfl]
  refine .tail (.single (.goto j .user hrun)) ?_
  rw [forkDone, if_pos rfl, ← hslot]
  exact .born j i (s.slots j).gen (by rw [hme]; exact hrun) (by rw [hslot]; exact hi) (by rw [hme])

/-! ### `exit` -/

omit [DecidableEq κ] in
theorem slots_wakeup1 (ch : ProcChan) : (s.wakeup1 ch).slots i =
    if (s.slots i).state = .sleeping ∧ (s.slots i).chan = some ch then
      { s.slots i with state := .runnable }
    else s.slots i := rfl

omit [DecidableEq κ] in
theorem slots_reparent : (s.reparent j).slots i =
    if (s.slots i).parent = some j then { s.slots i with parent := some initproc } else s.slots i :=
  rfl

omit [DecidableEq κ] in
theorem log_abandon : (s.abandon j).log = s.log := by
  rw [abandon]
  split <;> rfl

omit [DecidableEq κ] in
theorem parent_wakeup1 (ch : ProcChan) : ((s.wakeup1 ch).slots i).parent = (s.slots i).parent := by
  rw [slots_wakeup1]
  split <;> rfl

omit [DecidableEq κ] in
theorem parent_abandon : ((s.abandon j).slots i).parent =
    if (s.slots i).parent = some j then some initproc else (s.slots i).parent := by
  have hre : ((s.reparent j).slots i).parent =
      if (s.slots i).parent = some j then some initproc else (s.slots i).parent := by
    rw [slots_reparent]
    split <;> rfl
  rw [abandon]
  split
  · rw [parent_wakeup1, hre]
  · exact hre

omit [DecidableEq κ] in
theorem asleep_abandon (h : ((s.abandon j).slots i).state = .sleeping) :
    (s.slots i).state = .sleeping ∧ ((s.abandon j).slots i).chan = (s.slots i).chan := by
  have hre : ((s.reparent j).slots i).state = (s.slots i).state ∧
      ((s.reparent j).slots i).chan = (s.slots i).chan := by
    rw [slots_reparent]
    split <;> exact ⟨rfl, rfl⟩
  rw [abandon] at h ⊢
  split at h
  · next hz =>
    rw [if_pos hz]
    rw [slots_wakeup1] at h ⊢
    split at h
    · cases h
    · next hno =>
      rw [if_neg hno]
      exact ⟨hre.1 ▸ h, hre.2⟩
  · next hz =>
    rw [if_neg hz]
    exact ⟨hre.1 ▸ h, hre.2⟩

omit [DecidableEq κ] in
theorem awake_wakeParent {p : Fin nproc} (hp : (s.slots j).parent = some p)
    (hsleep : ((s.wakeParent j).slots p).state = .sleeping) :
    ((s.wakeParent j).slots p).chan ≠ some (.proc p) := by
  have heq : s.wakeParent j = s.wakeup1 (.proc p) := by rw [wakeParent, hp]
  rw [heq, slots_wakeup1] at hsleep ⊢
  split at hsleep
  · cases hsleep
  · next hno =>
    rw [if_neg hno]
    exact fun hchan ↦ hno ⟨hsleep, hchan⟩

omit [DecidableEq κ] in
theorem parent_wakeParent : ((s.wakeParent j).slots i).parent = (s.slots i).parent := by
  rw [wakeParent]
  split
  · rfl
  · exact parent_wakeup1 _

theorem changes_exit (hI : s.Inv) (hself : (s.slots j).parent ≠ some j) (hc : s.cpu c = some j)
    (hj : j ≠ initproc) : Changes s (s.exit c j) := by
  have hrun := hI.running c j hc
  rw [exit]
  set t := s.note (.exit (s.slots j).gen) with ht
  have hsoft : SoftStep s ((t.wakeParent j).abandon j) :=
    ((SoftStep.refl s).note _).trans (softStep_exit hj)
  have hwake : SoftStep s (t.wakeParent j) := by
    rw [wakeParent]
    split
    · exact (SoftStep.refl s).note _
    · exact ((SoftStep.refl s).note _).trans (softStep_wakeup1 _)
  have hlog : .exit (s.slots j).gen ∈ (t.wakeParent j).log := by
    rw [wakeParent]
    split <;> exact List.mem_cons_self
  have hfirst : Changes s (t.wakeParent j) := by
    refine .trans (.single (.exiting j hrun hj)) ?_
    rw [wakeParent]
    split
    · exact .refl
    · exact .single (.wake _)
  have hparent : (((t.wakeParent j).abandon j).slots j).parent = (s.slots j).parent := by
    rw [parent_abandon, parent_wakeParent, slots_note, if_neg hself]
  refine .tail (.tail hfirst (.abandon j hj ?_))
    (.exit c j ?_ hj ?_ (fun i hi ↦ ?_) fun p hp hs ↦ ?_)
  · rw [(hwake.slots j).gen]
    exact hlog
  · exact (congrFun hsoft.cpu c).trans hc
  · rw [(hsoft.slots j).gen, log_abandon]
    exact hlog
  · rw [parent_abandon] at hi
    split at hi
    · exact hj (Option.some.inj hi).symm
    · next hno => exact hno hi
  · obtain ⟨hs, hchan⟩ := asleep_abandon hs
    rw [hchan]
    exact awake_wakeParent (hparent ▸ hp) hs

/-! ## Every step -/

/-- **What a step is made of.** No process is its own parent; then a step is a `kill`, the end of a
`fork` that failed, or a sequence of changes. -/
theorem step_cases {a : κ × ProcAct} (hI : s.Inv) (hself : ∀ i, (s.slots i).parent ≠ some i)
    (h : s.step a = some s') :
    (∃ pid, a.2 = .kill pid ∧ s' = s.kill pid) ∨
    (∃ j i, a.2 = .forkDone false ∧ s.cpu a.1 = some j ∧ (s.slots j).pc = .forking i ∧
      s' = s.forkDone j i false) ∨ Changes s s' := by
  obtain ⟨c, act⟩ := a
  rw [step] at h
  split at h
  · next j hc =>
    have hrun := hI.running c j hc
    cases act with
    | sched i => cases h
    | yield =>
      cases h
      exact .inr (.inr (.single (.yield c j hc)))
    | fork =>
      obtain ⟨-, h⟩ := Option.ite_none_right_eq_some.mp h
      cases h
      exact .inr (.inr (changes_fork hrun))
    | forkDone ok =>
      simp only [ProcTable.act] at h
      split at h
      · next i hpc =>
        cases h
        cases ok with
        | true => exact .inr (.inr (changes_forkDone hrun (hI.embryo j i hpc)))
        | false => exact .inr (.inl ⟨j, i, rfl, hc, hpc, rfl⟩)
      · cases h
    | exit =>
      obtain ⟨⟨-, hj⟩, h⟩ := Option.ite_none_right_eq_some.mp h
      cases h
      exact .inr (.inr (changes_exit hI (hself j) hc hj))
    | wait =>
      obtain ⟨-, h⟩ := Option.ite_none_right_eq_some.mp h
      cases h
      exact .inr (.inr (changes_waitScan hrun hc))
    | kill pid =>
      obtain ⟨-, h⟩ := Option.ite_none_right_eq_some.mp h
      cases h
      exact .inl ⟨pid, rfl, rfl⟩
    | fault =>
      obtain ⟨-, h⟩ := Option.ite_none_right_eq_some.mp h
      cases h
      exact .inr (.inr (.single (.fault j hrun)))
    | sleep a =>
      obtain ⟨-, h⟩ := Option.ite_none_right_eq_some.mp h
      cases h
      exact .inr (.inr (.single (.sleep c j a hc)))
    | wakeup a =>
      cases h
      exact .inr (.inr (.single (.wake _)))
  · next hc =>
    split at h
    · next j =>
      obtain ⟨hj, h⟩ := Option.ite_none_right_eq_some.mp h
      cases h
      exact .inr (.inr (changes_sched hc hj))
    · cases h
      exact .inr (.inr (.single (.wake _)))
    · cases h

end ProcTable

end OperatingSystems
