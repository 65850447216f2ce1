import OperatingSystems.Proc.Moves

/-!
# `init` and its shell

`main` of `init.c`: `init` forks a shell, waits, and starts over. The process table runs below it,
with any other processes that fork, exit, wait and kill as they like.

`init` takes whatever child `wait` returns for the shell. But it also has the children that other
processes abandoned, and `wait` returns the first one in the table that has exited. So a background
job whose shell exits before it does, or the child of any process that does not wait, makes `init`
fork another shell while the last one is alive. It does so unless, whenever `init` looks at the
table and its shell is alive, no other child of it has exited.
-/

namespace OperatingSystems

/-- Where `main` of `init.c` is in its loop. -/
inductive InitPhase
  | starting
  | forked
  /-- `fork` failed or `init` was killed, and it exits. -/
  | failed
  deriving DecidableEq, Repr

structure InitLoop (κ : Type) where
  tab : ProcTable κ
  phase : InitPhase
  /-- The slot of the shell forked last, and which allocation of the slot it was. -/
  sh : Option (Fin nproc × ℕ)

namespace InitLoop

variable {κ : Type} [DecidableEq κ] (s : InitLoop κ)

def me : ProcSlot := s.tab.slots initproc

/-- Whether `init` looks at the table in `wait`: when it calls it, or when it is woken up in it. -/
def scans (a : κ × ProcAct) : Bool :=
  match s.tab.cpu a.1, a.2 with
  | some j, .wait => j = initproc
  | none, .sched j => j = initproc && s.me.pc = .waiting
  | _, _ => false

/-- The system calls of `init` are those of its loop. -/
def permits (a : κ × ProcAct) : Bool :=
  if s.tab.cpu a.1 = some initproc then
    match a.2 with
    | .fork => s.phase = .starting
    | .wait => s.phase = .forked
    | .kill _ => false
    | _ => true
  else true

/-- Where `init` is after a step that leads to the table `t`. -/
def nextPhase (a : κ × ProcAct) (t : ProcTable κ) : InitPhase :=
  if s.scans a then
    -- `wait` sleeps, or returns to `trap`, which ends a process that was killed
    if (t.slots initproc).pc ≠ .user then .forked
    else if (t.slots initproc).killed then .failed else .starting
  else if s.tab.cpu a.1 = some initproc then
    match a.2 with
    | .fork => if s.tab.allocproc.isNone then .failed else .starting
    | .forkDone ok => if ok then .forked else .failed
    | _ => s.phase
  else s.phase

def nextSh (a : κ × ProcAct) : Option (Fin nproc × ℕ) :=
  if s.tab.cpu a.1 = some initproc ∧ a.2 = .forkDone true then
    match s.me.pc with
    | .forking i => some (i, (s.tab.slots i).gen)
    | _ => s.sh
  else s.sh

def step (a : κ × ProcAct) : Option (InitLoop κ) :=
  if s.permits a then
    (s.tab.step a).map fun t ↦ { tab := t, phase := s.nextPhase a t, sh := s.nextSh a }
  else none

/-- The shell forked last is there and neither a zombie nor reaped. -/
def shAlive : Bool :=
  match s.sh with
  | none => false
  | some (i, g) =>
    (s.tab.slots i).gen = g && (s.tab.slots i).state ≠ .zombie && (s.tab.slots i).state ≠ .unused

/-- The condition on a step: `init` does not look at the table while its shell is alive and another
child of it has exited. -/
def NoZombie (s : InitLoop κ) (a : κ × ProcAct) : Prop :=
  s.scans a = true → s.shAlive = true →
    ∀ i, (s.tab.slots i).parent = some initproc → (s.tab.slots i).state ≠ .zombie

instance (s : InitLoop κ) (a : κ × ProcAct) : Decidable (NoZombie s a) :=
  inferInstanceAs (Decidable (_ → _ → ∀ _, _ → _))

end InitLoop

/-- The process table with `init` in its first slot. -/
def initLoop (κ : Type) [DecidableEq κ] : Machine (InitLoop κ) (κ × ProcAct) where
  init s := s = ⟨ProcTable.boot, .starting, none⟩
  step := InitLoop.step

namespace InitLoop

variable {κ : Type} {s s' : InitLoop κ} {t : ProcTable κ}

/-- The shell forked last is a child of `init`, and `init` is not about to fork while it lives. -/
structure Inv (s : InitLoop κ) : Prop where
  tab : s.tab.Inv
  old : ∀ i g, s.sh = some (i, g) → g < s.tab.allocs
  child : ∀ i g, s.sh = some (i, g) → (s.tab.slots i).gen = g →
    (s.tab.slots i).state ≠ .embryo ∧
    ((s.tab.slots i).state.live = true → (s.tab.slots i).parent = some initproc)
  starting : s.phase = .starting → s.shAlive = false
  forking : ∀ i, s.me.pc = .forking i → s.shAlive = false

/-! ## The shell forked last -/

theorem shAlive_iff : s.shAlive = true ↔ ∃ i g, s.sh = some (i, g) ∧ (s.tab.slots i).gen = g ∧
    (s.tab.slots i).state ≠ .zombie ∧ (s.tab.slots i).state ≠ .unused := by
  rw [shAlive]
  split
  · next h => simp [h]
  · next i g h =>
    simp only [h, Bool.and_eq_true, decide_eq_true_eq, Option.some.injEq, Prod.mk.injEq]
    constructor
    · rintro ⟨⟨hgen, hz⟩, hu⟩
      exact ⟨i, g, ⟨rfl, rfl⟩, hgen, hz, hu⟩
    · rintro ⟨i, g, ⟨rfl, rfl⟩, hgen, hz, hu⟩
      exact ⟨⟨hgen, hz⟩, hu⟩

theorem Inv.shAlive_of_moves (hI : s.Inv) (hm : ProcTable.Moves s.tab s'.tab) (hsh : s'.sh = s.sh)
    (h : s'.shAlive = true) : s.shAlive = true := by
  obtain ⟨i, g, hs, hgen, hz, hu⟩ := shAlive_iff.mp h
  rw [hsh] at hs
  refine shAlive_iff.mpr ⟨i, g, hs, ?_⟩
  cases hm i with
  | same hsame =>
    refine ⟨hsame.gen.symm.trans hgen, fun heq ↦ hz ?_, fun heq ↦ hu ?_⟩
    · exact (hsame.state_eq_iff rfl).mpr heq
    · exact (hsame.state_eq_iff rfl).mpr heq
  | alloc before after gen => exact absurd (gen.symm.trans hgen) (hI.old i g hs).ne'
  | fail before after gen => exact absurd after hu
  | born before after gen => exact absurd before (hI.child i g hs (gen.symm.trans hgen)).1
  | exit before after ne gen => exact absurd after hz
  | reap before after gen => exact absurd after hu

theorem Inv.child_of_moves (hI : s.Inv) (hm : ProcTable.Moves s.tab t) {i : Fin nproc} {g : ℕ}
    (hs : s.sh = some (i, g)) (hgen : (t.slots i).gen = g) : (t.slots i).state ≠ .embryo ∧
      ((t.slots i).state.live = true → (t.slots i).parent = some initproc) := by
  cases hm i with
  | same hsame =>
    obtain ⟨hembryo, hparent⟩ := hI.child i g hs (hsame.gen.symm.trans hgen)
    refine ⟨fun heq ↦ hembryo ((hsame.state_eq_iff rfl).mp heq), fun hlive ↦ ?_⟩
    have hinit := hparent (hsame.live_iff.mp hlive)
    rcases hsame.parent with heq | ⟨hne, -⟩
    · rw [heq, hinit]
    · exact absurd hinit hne
  | alloc before after gen => exact absurd (gen.symm.trans hgen) (hI.old i g hs).ne'
  | fail before after gen => simp [after, ProcState.live]
  | born before after gen => exact absurd before (hI.child i g hs (gen.symm.trans hgen)).1
  | exit before after ne gen => simp [after, ProcState.live]
  | reap before after gen => simp [after, ProcState.live]

theorem Inv.killed_of_moves (hI : s.Inv) (hm : ProcTable.Moves s.tab t) (h : s.me.killed = true) :
    (t.slots initproc).killed = true := by
  have hlive : s.me.state.live = true := hI.tab.init
  cases hm initproc with
  | same hsame => exact hsame.killed h
  | alloc before after gen => simp [me, before, ProcState.live] at hlive
  | fail before after gen => simp [me, before, ProcState.live] at hlive
  | born before after gen => simp [me, before, ProcState.live] at hlive
  | exit before after ne gen => exact absurd rfl ne
  | reap before after gen => simp [me, before, ProcState.live] at hlive

/-! ## What `wait` returns -/

section Steps

variable [DecidableEq κ] {a : κ × ProcAct}

theorem killed_of_waitScan {c : κ} {j : Fin nproc}
    (hno : ∀ i, (t.slots i).parent = some j → (t.slots i).state ≠ .zombie)
    (hkid : ∃ i, (t.slots i).parent = some j) (h : ((t.waitScan c j).slots j).pc = .user) :
    (t.slots j).killed = true := by
  rw [ProcTable.waitScan] at h
  split at h
  · next i hi =>
    have := ProcTable.of_first hi
    rw [Bool.and_eq_true, decide_eq_true_eq, decide_eq_true_eq] at this
    exact absurd this.2 (hno i this.1)
  · split at h
    · next hcond =>
      rcases Bool.or_eq_true_iff.mp hcond with hnone | hkilled
      · obtain ⟨i, hi⟩ := hkid
        have := ProcTable.of_first_eq_none (Option.isNone_iff_eq_none.mp hnone) i
        exact absurd hi (of_decide_eq_false this)
      · exact hkilled
    · rw [ProcTable.slots_setCpu, ProcTable.slots_setSlot, if_pos rfl] at h
      cases h

theorem Inv.killed_of_scans (hI : s.Inv) (hg : NoZombie s a) (hscans : s.scans a = true)
    (ht : s.tab.step a = some t) (halive : s.shAlive = true) (hpc : (t.slots initproc).pc = .user) :
    s.me.killed = true := by
  have hno := hg hscans halive
  obtain ⟨i, g, hs, hgen, hz, hu⟩ := shAlive_iff.mp halive
  obtain ⟨hembryo, hparent⟩ := hI.child i g hs hgen
  have hkid : (s.tab.slots i).parent = some initproc := by
    apply hparent
    cases hstate : (s.tab.slots i).state with
    | unused => exact absurd hstate hu
    | embryo => exact absurd hstate hembryo
    | zombie => exact absurd hstate hz
    | _ => rfl
  obtain ⟨c, act⟩ := a
  rw [ProcTable.step] at ht
  rw [scans] at hscans
  cases hc : s.tab.cpu c with
  | some j =>
    simp only [hc] at ht hscans
    cases act <;> try cases hscans
    obtain rfl := of_decide_eq_true hscans
    obtain ⟨-, ht⟩ := Option.ite_none_right_eq_some.mp ht
    cases ht
    exact killed_of_waitScan hno ⟨i, hkid⟩ hpc
  | none =>
    simp only [hc] at ht hscans
    cases act <;> try cases hscans
    rw [Bool.and_eq_true, decide_eq_true_eq, decide_eq_true_eq] at hscans
    obtain ⟨rfl, hwaiting : (s.tab.slots initproc).pc = .waiting⟩ := hscans
    obtain ⟨-, ht⟩ := Option.ite_none_right_eq_some.mp ht
    cases ht
    rw [ProcTable.sched, if_pos hwaiting] at hpc
    -- the switch to `init` changes nothing but the state of `init`
    have hslot : ∀ k, (s.tab.slots k).parent = (((s.tab.setSlot initproc fun p ↦
        { p with state := .running, chan := none }).setCpu c (some initproc)).slots k).parent := by
      intro k
      rw [ProcTable.slots_setCpu, ProcTable.slots_setSlot]
      split <;> rfl
    have hkilled := killed_of_waitScan (fun k hk ↦ ?_) ⟨i, (hslot i).symm.trans hkid⟩ hpc
    · rw [ProcTable.slots_setCpu, ProcTable.slots_setSlot, if_pos rfl] at hkilled
      exact hkilled
    · have hk := hno k ((hslot k).trans hk)
      rw [ProcTable.slots_setCpu, ProcTable.slots_setSlot]
      split
      · intro h
        cases h
      · exact hk

/-! ## Every step -/

omit [DecidableEq κ] in
theorem Inv.not_alive_of_fork (hI : s.Inv) (hp : s.permits a = true)
    (hc : s.tab.cpu a.1 = some initproc)
    (ha : a.2 = .fork) : s.shAlive = false := by
  rw [permits, if_pos hc, ha] at hp
  exact hI.starting (of_decide_eq_true hp)

theorem Inv.not_alive_of_starting (hI : s.Inv) (hg : NoZombie s a) (hp : s.permits a = true)
    (ht : s.tab.step a = some t) (hphase : s.nextPhase a t = .starting) : s.shAlive = false := by
  rw [nextPhase] at hphase
  split at hphase
  · next hscans =>
    split at hphase
    · cases hphase
    · next hpc =>
      split at hphase
      · cases hphase
      · next hkilled =>
        -- `wait` returned, and not because `init` was killed
        by_contra halive
        rw [Bool.not_eq_false] at halive
        exact hkilled (hI.killed_of_moves (ProcTable.good_of_step hI.tab ht).moves
          (hI.killed_of_scans hg hscans ht halive (not_not.mp hpc)))
  · split at hphase
    · next hc =>
      split at hphase
      · next ha => exact hI.not_alive_of_fork hp hc ha
      · split at hphase <;> cases hphase
      · exact hI.starting hphase
    · exact hI.starting hphase

theorem Inv.step_forkDone (hI : s.Inv) (hc : s.tab.cpu a.1 = some initproc)
    (ha : a.2 = .forkDone true) (ht : s.tab.step a = some t) :
    Inv ⟨t, s.nextPhase a t, s.nextSh a⟩ := by
  have hgood := ProcTable.good_of_step hI.tab ht
  have hphase : s.nextPhase a t = .forked := by
    have hscans : s.scans a = false := by rw [scans, hc, ha]
    rw [nextPhase, hscans, if_neg Bool.false_ne_true, if_pos hc, ha]
    rfl
  rw [ProcTable.step, hc, ha] at ht
  simp only [ProcTable.act] at ht
  split at ht
  · next i hpc =>
    cases ht
    have hembryo := hI.tab.embryo initproc i hpc
    have hi : initproc ≠ i := by
      rintro rfl
      have := hI.tab.init
      rw [hembryo] at this
      cases this
    have hsh : s.nextSh a = some (i, (s.tab.slots i).gen) := by
      have hme : s.me.pc = .forking i := hpc
      rw [nextSh, if_pos ⟨hc, ha⟩, hme]
    refine ⟨hgood.inv, fun i' g hs ↦ ?_, fun i' g hs hgen ↦ ?_, fun hstart ↦ ?_, fun i' hpc' ↦ ?_⟩
    · rw [hsh] at hs
      cases hs
      exact (hI.tab.gen i).trans_le hgood.allocs
    · rw [hsh] at hs
      cases hs
      simp only [ProcTable.forkDone, ProcTable.slots_note, ProcTable.slots_setSlot, if_true]
      refine ⟨fun h ↦ ?_, fun _ ↦ trivial⟩
      cases h
    · rw [hphase] at hstart
      cases hstart
    · simp only [me, ProcTable.forkDone, ProcTable.slots_note, ProcTable.slots_setSlot, hi,
        if_false, if_true] at hpc'
      cases hpc'
  · cases ht

theorem Inv.step (hI : s.Inv) (hg : NoZombie s a) (h : s.step a = some s') : s'.Inv := by
  obtain ⟨hp, h⟩ := Option.ite_none_right_eq_some.mp h
  obtain ⟨t, ht, rfl⟩ := Option.map_eq_some_iff.mp h
  by_cases hdone : s.tab.cpu a.1 = some initproc ∧ a.2 = .forkDone true
  · exact hI.step_forkDone hdone.1 hdone.2 ht
  · have hgood := ProcTable.good_of_step hI.tab ht
    have hsh : s.nextSh a = s.sh := if_neg hdone
    have hdead : s.shAlive = false →
        shAlive ⟨t, s.nextPhase a t, s.nextSh a⟩ = false := by
      intro hfalse
      by_contra halive
      rw [Bool.not_eq_false] at halive
      rw [hI.shAlive_of_moves hgood.moves hsh halive] at hfalse
      cases hfalse
    refine ⟨hgood.inv, fun i g hs ↦ ?_, fun i g hs hgen ↦ ?_, fun hphase ↦ ?_, fun i hpc ↦ ?_⟩
    · exact (hI.old i g (hsh ▸ hs)).trans_le hgood.allocs
    · exact hI.child_of_moves hgood.moves (hsh ▸ hs) hgen
    · exact hdead (hI.not_alive_of_starting hg hp ht hphase)
    · rcases ProcTable.forking_of_step ht hpc with hpc | ⟨ha, hc⟩
      · exact hdead (hI.forking i hpc)
      · exact hdead (hI.not_alive_of_fork hp hc ha)

theorem inv_of_reachableUnder (h : (initLoop κ).ReachableUnder NoZombie s) : s.Inv := by
  refine h.invariant (I := Inv) ?_ fun _ _ _ _ hI hg hs ↦ hI.step hg hs
  rintro _ rfl
  refine ⟨ProcTable.inv_boot, ?_, ?_, fun _ ↦ rfl, fun _ _ ↦ rfl⟩
  · intro i g hs
    cases hs
  · intro i g hs
    cases hs

end Steps

end InitLoop

open InitLoop in
/-- **When `init` has one shell at a time.** Whatever the other processes do: in every state of a
run in which `init` never looks at the table while its shell is alive and another child has exited,
the shell forked last is not alive when `init` is in `fork`. -/
theorem init_forks_after_shell {κ : Type} [DecidableEq κ] {s : InitLoop κ}
    (h : (initLoop κ).ReachableUnder NoZombie s) {i : Fin nproc} (hpc : s.me.pc = .forking i) :
    s.shAlive = false :=
  (inv_of_reachableUnder h).forking i hpc

/-! ## One CPU -/

namespace InitLoop

/-- `init` forks its shell and waits. -/
private def startShell : List (Unit × ProcAct) :=
  [((), .sched 0), ((), .fork), ((), .forkDone true), ((), .wait)]

/-- The shell runs a command in the background: a process that forks the command and exits. -/
private def runBack : List (Unit × ProcAct) :=
  [((), .sched 1), ((), .fork), ((), .forkDone true), ((), .yield), ((), .sched 2), ((), .fork),
    ((), .forkDone true), ((), .exit)]

/-- Process `j` runs and exits, and `init` is the next to run and forks. -/
private def exitOf (j : Fin nproc) : List (Unit × ProcAct) :=
  [((), .sched j), ((), .exit), ((), .sched 0), ((), .fork)]

end InitLoop

open InitLoop in
/-- The background command exits while the shell goes on, and `init` forks another shell. -/
theorem init_forks_while_shell_alive : ∃ s : InitLoop Unit, (initLoop Unit).Reachable s ∧
    s.me.pc = .forking 3 ∧ s.shAlive = true := by
  obtain ⟨s, hs, hp⟩ := Machine.exists_reachable_of_run (M := initLoop Unit)
    (startShell ++ runBack ++ exitOf 3) (fun s ↦ s.me.pc = .forking 3 && s.shAlive) rfl
    (by decide +kernel)
  rw [Bool.and_eq_true, decide_eq_true_eq] at hp
  exact ⟨s, hs, hp⟩

open InitLoop in
/-- The shell exits, and `init` forks the next one. -/
theorem init_forks_after_shell_exit :
    ∃ s : InitLoop Unit, s.me.pc = .forking 1 ∧ s.sh = some (1, 1) ∧
    s.shAlive = false := by
  obtain ⟨s, hs, hp⟩ := Machine.exists_reachableUnder_of_run (M := initLoop Unit) (G := NoZombie)
    (startShell ++ exitOf 1) (fun s ↦ s.me.pc = .forking 1 && s.sh = some (1, 1)) rfl
    (by decide +kernel)
  rw [Bool.and_eq_true, decide_eq_true_eq, decide_eq_true_eq] at hp
  exact ⟨s, hp.1, hp.2, init_forks_after_shell hs hp.1⟩

end OperatingSystems
