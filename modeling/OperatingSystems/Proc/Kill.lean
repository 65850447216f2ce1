import OperatingSystems.Proc.Handoff

/-!
# Kill and slots that are not in use

`kill` takes the first slot of the table with the pid it is given, whatever the state of the slot. A
slot that was reaped or never used has pid 0, and one whose `fork` failed still has its last pid;
`killed` is cleared when a slot is reaped and nowhere else. So `kill` can succeed without a process,
and the next process in the slot is born killed. The same happens to the process after one that was
killed during a `fork` that then failed.

When `kill` never hits a slot that is not in use and no killed process is given up by `fork`, a
process that `fork` has just made is killed only if `kill` was called for its own pid.
-/

namespace OperatingSystems

namespace ProcTable

variable {κ : Type} {s s' : ProcTable κ} {c : κ} {i j : Fin nproc} {pid : BitVec 32}
  {l : List ProcEvent} {g : ℕ}

/-- `kill` succeeds exactly if some process has the pid, and changes no other slot. -/
structure KillsLive (s : ProcTable κ) (pid : BitVec 32) : Prop where
  ret : s.killRet pid = 0 ↔ ∃ i, (s.slots i).state ≠ .unused ∧ (s.slots i).pid = pid
  slot : ∀ i, (s.kill pid).slots i ≠ s.slots i →
    ((s.slots i).state ≠ .unused ∧ (s.slots i).pid = pid) ∧
      ∀ k, k ≠ i → (s.kill pid).slots k = s.slots k

/-- The first slot with the pid, if there is one, is in use. -/
def HitsLive (s : ProcTable κ) (pid : BitVec 32) : Prop :=
  ∀ i, s.first (fun p ↦ p.pid = pid) = some i → (s.slots i).state ≠ .unused

instance (s : ProcTable κ) (pid : BitVec 32) : Decidable (s.HitsLive pid) :=
  inferInstanceAs (Decidable (∀ _, _ → _))

theorem killRet_eq_zero_iff : s.killRet pid = 0 ↔ ∃ i, (s.slots i).pid = pid := by
  rw [killRet]
  cases hfirst : s.first fun p ↦ p.pid = pid with
  | none =>
    refine iff_of_false (by decide) ?_
    rintro ⟨i, hi⟩
    exact of_decide_eq_false (of_first_eq_none hfirst i) hi
  | some i => exact iff_of_true rfl ⟨i, of_decide_eq_true (of_first hfirst)⟩

theorem slots_kill (hi : s.first (fun p ↦ p.pid = pid) = some i) (k : Fin nproc) :
    (s.kill pid).slots k = if k = i then { s.slots k with
      killed := true
      state := if (s.slots k).state = .sleeping then .runnable else (s.slots k).state }
    else s.slots k := by
  have heq : s.kill pid = (s.setSlot i fun p ↦ { p with
      killed := true
      state := if p.state = .sleeping then .runnable else p.state }).note (.kill pid) := by
    rw [kill, hi]
  rw [heq, slots_note, slots_setSlot]

theorem HitsLive.killsLive (h : s.HitsLive pid) : s.KillsLive pid := by
  constructor
  · rw [killRet_eq_zero_iff]
    constructor
    · rintro ⟨i, hi⟩
      cases hfirst : s.first fun p ↦ p.pid = pid with
      | none => exact absurd hi (of_decide_eq_false (of_first_eq_none hfirst i))
      | some k => exact ⟨k, h k hfirst, of_decide_eq_true (of_first hfirst)⟩
    · rintro ⟨i, -, hi⟩
      exact ⟨i, hi⟩
  · intro i hne
    cases hfirst : s.first fun p ↦ p.pid = pid with
    | none =>
      rw [kill, hfirst] at hne
      exact absurd rfl hne
    | some k =>
      have hik : i = k := by
        by_contra hik
        rw [slots_kill hfirst, if_neg hik] at hne
        exact hne rfl
      subst hik
      refine ⟨⟨h i hfirst, of_decide_eq_true (of_first hfirst)⟩, fun l hl ↦ ?_⟩
      rw [slots_kill hfirst, if_neg hl]

theorem KillsLive.hitsLive (h : s.KillsLive pid)
    (hclean : ∀ i, (s.slots i).state = .unused → (s.slots i).killed = false) : s.HitsLive pid := by
  intro i hi hunused
  have hne : (s.kill pid).slots i ≠ s.slots i := by
    intro heq
    have hkilled := congrArg ProcSlot.killed heq
    rw [slots_kill hi, if_pos rfl, hclean i hunused] at hkilled
    cases hkilled
  exact (h.slot i hne).1.1 hunused

/-! ## Processes that were not killed -/

/-- No `kill` hits a slot that is not in use, and no `fork` gives up a child that was killed. -/
def Clean (s : ProcTable κ) (a : κ × ProcAct) : Prop :=
  match a.2 with
  | .kill pid => s.HitsLive pid
  | .forkDone false => ∀ j i, s.cpu a.1 = some j → (s.slots j).pc = .forking i →
      (s.slots i).killed = false
  | _ => True

instance (s : ProcTable κ) (a : κ × ProcAct) : Decidable (s.Clean a) :=
  match a with
  | (_, .kill pid) => inferInstanceAs (Decidable (s.HitsLive pid))
  | (c, .forkDone false) => inferInstanceAs (Decidable (∀ j i, s.cpu c = some j →
      (s.slots j).pc = .forking i → (s.slots i).killed = false))
  | (_, .forkDone true) | (_, .sched _) | (_, .yield) | (_, .fork) | (_, .exit) | (_, .wait)
  | (_, .fault) | (_, .sleep _) | (_, .wakeup _) => inferInstanceAs (Decidable True)

/-- `kill` was called for process `g` with pid `pid` since it was allocated. -/
def KilledSince (l : List ProcEvent) (g : ℕ) (pid : BitVec 32) : Prop :=
  ∃ l₁ l₂, l = l₂ ++ .alloc g pid :: l₁ ∧ .kill pid ∈ l₂

/-- A slot that is not in use is not killed, and one that is being set up only for a reason. -/
structure Unhurt (s : ProcTable κ) : Prop where
  unused : ∀ i, (s.slots i).state = .unused → (s.slots i).killed = false
  embryo : ∀ i, (s.slots i).state = .embryo → .alloc (s.slots i).gen (s.slots i).pid ∈ s.log ∧
    ((s.slots i).killed = true → KilledSince s.log (s.slots i).gen (s.slots i).pid)

theorem KilledSince.cons (e : ProcEvent) (h : KilledSince l g pid) :
    KilledSince (e :: l) g pid := by
  obtain ⟨l₁, l₂, rfl, hmem⟩ := h
  exact ⟨l₁, e :: l₂, rfl, List.mem_cons_of_mem _ hmem⟩

theorem KilledSince.kill (h : .alloc g pid ∈ l) : KilledSince (.kill pid :: l) g pid := by
  obtain ⟨l₂, l₁, rfl⟩ := List.append_of_mem h
  exact ⟨l₁, .kill pid :: l₂, rfl, List.mem_cons_self⟩

namespace Unhurt

theorem of_slots (h : s.Unhurt)
    (hlog : s'.log = s.log ∨ ∃ e, s'.log = e :: s.log)
    (hslot : ∀ i, (s'.slots i).state = .unused ∨ (s'.slots i).state = .embryo →
      (s'.slots i).state = (s.slots i).state ∧ (s'.slots i).killed = (s.slots i).killed ∧
        (s'.slots i).gen = (s.slots i).gen ∧ (s'.slots i).pid = (s.slots i).pid) : s'.Unhurt where
  unused i hi := by
    obtain ⟨hstate, hkilled, -⟩ := hslot i (.inl hi)
    rw [hkilled]
    exact h.unused i (hstate ▸ hi)
  embryo i hi := by
    obtain ⟨hstate, hkilled, hgen, hpid⟩ := hslot i (.inr hi)
    rw [hkilled, hgen, hpid]
    obtain ⟨hmem, hsince⟩ := h.embryo i (hstate ▸ hi)
    rcases hlog with heq | ⟨e, heq⟩ <;> rw [heq]
    · exact ⟨hmem, hsince⟩
    · exact ⟨List.mem_cons_of_mem _ hmem, fun hk ↦ (hsince hk).cons e⟩

variable {f : ProcSlot → ProcSlot}

theorem setSlot (h : s.Unhurt) (hunused : (f (s.slots j)).state ≠ .unused)
    (hembryo : (f (s.slots j)).state ≠ .embryo) : (s.setSlot j f).Unhurt := by
  refine h.of_slots (.inl rfl) fun i hi ↦ ?_
  rw [slots_setSlot] at hi ⊢
  split at hi
  · next hij =>
    rw [hij] at hi
    exact (hi.elim hunused hembryo).elim
  · next hij =>
    rw [if_neg hij]
    exact ⟨rfl, rfl, rfl, rfl⟩

theorem note (h : s.Unhurt) {e : ProcEvent} : (s.note e).Unhurt :=
  h.of_slots (.inr ⟨e, rfl⟩) fun _ _ ↦ ⟨rfl, rfl, rfl, rfl⟩

theorem setCpu [DecidableEq κ] (h : s.Unhurt) {p : Option (Fin nproc)} : (s.setCpu c p).Unhurt :=
  ⟨h.unused, h.embryo⟩

theorem wakeup1 (h : s.Unhurt) (ch : ProcChan) : (s.wakeup1 ch).Unhurt := by
  refine h.of_slots (.inl rfl) fun i hi ↦ ?_
  rw [slots_wakeup1] at hi ⊢
  split at hi
  · rcases hi with hi | hi <;> cases hi
  · next hno =>
    rw [if_neg hno]
    exact ⟨rfl, rfl, rfl, rfl⟩

theorem abandon (h : s.Unhurt) : (s.abandon j).Unhurt := by
  have hre : (s.reparent j).Unhurt := by
    refine h.of_slots (.inl rfl) fun i _ ↦ ?_
    rw [slots_reparent]
    split <;> exact ⟨rfl, rfl, rfl, rfl⟩
  rw [ProcTable.abandon]
  split
  · exact hre.wakeup1 _
  · exact hre

theorem alloc (h : s.Unhurt) (hi : (s.slots i).state = .unused) : (s.allocated i).Unhurt := by
  refine ⟨fun k hk ↦ ?_, fun k hk ↦ ?_⟩
  · rw [slots_allocated] at hk ⊢
    split at hk
    · cases hk
    · next hki =>
      rw [if_neg hki]
      exact h.unused k hk
  · rw [slots_allocated] at hk ⊢
    split at hk
    · next hki =>
      rw [if_pos hki]
      refine ⟨List.mem_cons_self, fun hkilled ↦ ?_⟩
      -- the slot was free, and free slots are not killed
      rw [hki] at hkilled
      rw [h.unused i hi] at hkilled
      cases hkilled
    · next hki =>
      rw [if_neg hki]
      obtain ⟨hmem, hsince⟩ := h.embryo k hk
      exact ⟨List.mem_cons_of_mem _ hmem, fun hkilled ↦ (hsince hkilled).cons _⟩

theorem setUnused (h : s.Unhurt) (hstate : (f (s.slots i)).state = .unused)
    (hkilled : (f (s.slots i)).killed = false) : (s.setSlot i f).Unhurt := by
  refine ⟨fun k hk ↦ ?_, fun k hk ↦ ?_⟩
  · rw [slots_setSlot] at hk ⊢
    split
    · next hki => rw [hki, hkilled]
    · next hki =>
      rw [if_neg hki] at hk
      exact h.unused k hk
  · rw [slots_setSlot] at hk ⊢
    split at hk
    · next hki =>
      rw [hki, hstate] at hk
      cases hk
    · next hki =>
      rw [if_neg hki]
      exact h.embryo k hk

theorem kill (h : s.Unhurt) (hlive : s.HitsLive pid) : (s.kill pid).Unhurt := by
  cases hfirst : s.first fun p ↦ p.pid = pid with
  | none =>
    have heq : s.kill pid = s.note (.kill pid) := by rw [ProcTable.kill, hfirst]
    rw [heq]
    exact h.note
  | some i =>
    have hused := hlive i hfirst
    have hpid : (s.slots i).pid = pid := of_decide_eq_true (of_first hfirst)
    refine ⟨fun k hk ↦ ?_, fun k hk ↦ ?_⟩
    · rw [slots_kill hfirst] at hk ⊢
      split at hk
      · next hki =>
        subst hki
        dsimp only at hk
        split at hk
        · cases hk
        · exact absurd hk hused
      · next hki =>
        rw [if_neg hki]
        exact h.unused k hk
    · rw [slots_kill hfirst, log_kill] at *
      split at hk
      · next hki =>
        subst hki
        rw [if_pos rfl]
        dsimp only at hk ⊢
        have hembryo : (s.slots k).state = .embryo := by
          split at hk
          · cases hk
          · exact hk
        obtain ⟨hmem, -⟩ := h.embryo k hembryo
        rw [hpid] at hmem ⊢
        exact ⟨List.mem_cons_of_mem _ hmem, fun _ ↦ .kill hmem⟩
      · next hki =>
        rw [if_neg hki]
        obtain ⟨hmem, hsince⟩ := h.embryo k hk
        exact ⟨List.mem_cons_of_mem _ hmem, fun hkilled ↦ (hsince hkilled).cons _⟩

end Unhurt

section Steps

variable [DecidableEq κ]

theorem Change.unhurt (h : Change s s') (hU : s.Unhurt) : s'.Unhurt := by
  have hrun : ∀ {j}, (s.slots j).state = .running → (s.slots j).state ≠ .unused ∧
      (s.slots j).state ≠ .embryo := by
    intro j hj
    rw [hj]
    exact ⟨ProcState.noConfusion, ProcState.noConfusion⟩
  cases h with
  | wake ch => exact hU.wakeup1 ch
  | fault j run => exact hU.setSlot (hrun run).1 (hrun run).2
  | goto j pc run => exact hU.setSlot (hrun run).1 (hrun run).2
  | waitNone g => exact hU.note
  | yield c j cpu =>
    apply Unhurt.setCpu
    exact hU.setSlot ProcState.noConfusion ProcState.noConfusion
  | sleep c j a cpu =>
    apply Unhurt.setCpu
    exact hU.setSlot ProcState.noConfusion ProcState.noConfusion
  | sleepWait c j cpu _ =>
    apply Unhurt.setCpu
    exact hU.setSlot ProcState.noConfusion ProcState.noConfusion
  | sched c j _ _ =>
    apply Unhurt.setCpu
    exact hU.setSlot ProcState.noConfusion ProcState.noConfusion
  | alloc i free => exact hU.alloc free
  | born j i g _ _ _ =>
    apply Unhurt.note
    exact hU.setSlot ProcState.noConfusion ProcState.noConfusion
  | exiting j _ _ => exact hU.note
  | abandon j _ _ => exact hU.abandon
  | exit c j _ _ _ _ _ =>
    apply Unhurt.setCpu
    exact hU.setSlot ProcState.noConfusion ProcState.noConfusion
  | reap j i g _ _ _ _ =>
    apply Unhurt.note
    exact hU.setUnused rfl rfl

theorem Unhurt.step {a : κ × ProcAct} (h : s.Unhurt) (hO : s.Orderly) (hg : s.Clean a)
    (hs : s.step a = some s') : s'.Unhurt := by
  obtain ⟨c, act⟩ := a
  rcases step_cases hO.inv hO.family.self hs with
    ⟨pid, rfl, rfl⟩ | ⟨j, i, rfl, hc, hpc, rfl⟩ | hchanges
  · exact h.kill hg
  · have hrun := hO.cpus.running c j hc
    have hij : i ≠ j := by
      rintro rfl
      rw [hO.inv.embryo i i hpc] at hrun
      cases hrun
    have huser : (s.setSlot j fun p ↦ { p with pc := .user }).Unhurt :=
      h.setSlot (by rw [hrun]; exact ProcState.noConfusion)
        (by rw [hrun]; exact ProcState.noConfusion)
    rw [forkDone, if_neg Bool.false_ne_true]
    refine huser.setUnused rfl ?_
    rw [slots_setSlot, if_neg hij]
    exact hg j i hc hpc
  · exact hchanges.preserves (fun _ _ hch ↦ hch.unhurt) h

theorem unhurt_of_reachable (h : (procTable κ).ReachableUnder Clean s) : s.Unhurt := by
  refine h.invariant ?_ fun s a s' hr hU hg hs ↦ hU.step (orderly_of_reachable hr.reachable) hg hs
  rintro _ rfl
  have hslot : ∀ i : Fin nproc, (boot : ProcTable κ).slots i =
      if i = initproc then ⟨.runnable, 1, none, false, none, .user, 0⟩
      else ⟨.unused, 0, none, false, none, .user, 0⟩ := fun _ ↦ rfl
  refine ⟨fun i _ ↦ ?_, fun i hi ↦ ?_⟩
  · rw [hslot]
    split <;> rfl
  · rw [hslot] at hi
    split at hi <;> cases hi

/-- **Kill.** In every state of a run in which no `kill` hits a slot that is not in use and no
`fork` gives up a child that was killed: `kill` succeeds exactly if a process has the pid, and
changes no slot but that of a process with the pid, if and only if the first slot with the pid is in
use; and a process that `fork` makes `RUNNABLE` is killed only if `kill` was called with its pid
since `allocproc` assigned it. -/
theorem kill_live (h : (procTable κ).ReachableUnder Clean s) :
    (∀ pid, s.KillsLive pid ↔ s.HitsLive pid) ∧
    ∀ c i s', (procTable κ).step s (c, .forkDone true) = some s' → (s.slots i).state = .embryo →
      (s'.slots i).state = .runnable → (s'.slots i).killed = true →
        KilledSince s'.log (s'.slots i).gen (s'.slots i).pid := by
  have hU := unhurt_of_reachable h
  refine ⟨fun pid ↦ ⟨fun hk ↦ hk.hitsLive hU.unused, HitsLive.killsLive⟩,
    fun c i s' hs hi hrun hkilled ↦ ?_⟩
  change s.step (c, .forkDone true) = some s' at hs
  rw [step] at hs
  split at hs
  · next j hc =>
    simp only [ProcTable.act] at hs
    split at hs
    · next k hpc =>
      cases hs
      have hij : i ≠ j := by
        rintro rfl
        rw [(orderly_of_reachable h.reachable).cpus.running c i hc] at hi
        cases hi
      rw [forkDone, if_pos rfl] at hrun hkilled ⊢
      simp only [slots_note, slots_setSlot, if_neg hij] at hrun hkilled ⊢
      split at hrun
      · next hik =>
        rw [if_pos hik] at hkilled ⊢
        exact ((hU.embryo i hi).2 hkilled).cons _
      · rw [hi] at hrun
        cases hrun
    · cases hs
  · cases hs

/-- `kill` with the pid of a child. -/
theorem kill_live_child : ∃ s : ProcTable Unit, (procTable Unit).ReachableUnder Clean s ∧
    s.HitsLive 2 ∧ s.KillsLive 2 := by
  obtain ⟨s, hs, hend⟩ := Machine.exists_reachableUnder_of_run (M := procTable Unit) (G := Clean)
    [((), .sched 0), ((), .fork), ((), .forkDone true)] (fun s ↦ s.HitsLive 2) rfl
    (by decide +kernel)
  have hhits := of_decide_eq_true hend
  exact ⟨s, hs, hhits, ((kill_live hs).1 2).mpr hhits⟩

/-- The first process calls `kill(0)`, which succeeds although there is no such process. The child
that it forks next is born killed, and `kill` was never called with the pid of the child. -/
theorem exists_killed_at_birth : (∃ s : ProcTable Unit, (procTable Unit).Reachable s ∧
      ¬s.KillsLive 0) ∧
    ∃ s : ProcTable Unit, (procTable Unit).Reachable s ∧ (s.slots 1).state = .runnable ∧
      (s.slots 1).killed = true ∧ .kill (s.slots 1).pid ∉ s.log := by
  constructor
  · obtain ⟨s, hs, hend⟩ := Machine.exists_reachable_of_run (M := procTable Unit)
      [((), .sched 0)] (fun s ↦ s.killRet 0 = 0 ∧
        ∀ i, (s.slots i).state ≠ .unused → (s.slots i).pid ≠ 0) rfl (by decide +kernel)
    obtain ⟨hret, hno⟩ := of_decide_eq_true hend
    refine ⟨s, hs, fun hk ↦ ?_⟩
    obtain ⟨i, hi, hpid⟩ := hk.ret.mp hret
    exact hno i hi hpid
  · obtain ⟨s, hs, hend⟩ := Machine.exists_reachable_of_run (M := procTable Unit)
      [((), .sched 0), ((), .kill 0), ((), .fork), ((), .forkDone true)]
      (fun s ↦ (s.slots 1).state = .runnable ∧ (s.slots 1).killed = true ∧
        .kill (s.slots 1).pid ∉ s.log) rfl (by decide +kernel)
    exact ⟨s, hs, of_decide_eq_true hend⟩

end Steps

end ProcTable

end OperatingSystems
