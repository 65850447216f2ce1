import OperatingSystems.Console.Reader
import OperatingSystems.Pipe.Basic

/-!
# Processes that are killed on their way to sleep

The loops of `pipewrite`, `piperead` and `consoleread` test `killed` before they sleep, so that a
killed process gets out of them, and `kill` wakes a process that sleeps already. The test is made
under the lock of the pipe or of the console, but `kill` sets the flag under `ptable.lock`: a kill
that comes after the test and before `sleep` has taken `ptable.lock` finds a process that does not
sleep yet, and is not seen by it any more.

A kill at one of these places is always lost, and if there is none, nobody sleeps who is killed.
-/

namespace OperatingSystems

/-- The places in the loops of a pipe between the test of `killed` and the `sleep`. -/
def PipePc.tested : PipePc → Bool
  | writeFull .. | writeSleep .. | readSleep .. => true
  | _ => false

def TtyPc.tested : TtyPc → Bool
  | readSleep .. => true
  | _ => false

variable {π : Type} [DecidableEq π]

namespace Pipe

variable {m : Monitor π PipePc PipeChan (Pipe π)} {s : Pipe π} {p : π} {pc : PipePc} {k : Bool}
  {i : Instr PipePc PipeChan (Pipe π)}

theorem Move.tests (h : Move p k s pc i) : i.Tests (fun pc ↦ pc.tested = true) pc k := by
  cases h with
  | full hfull hopen hk => exact ⟨fun _ _ heq ↦ (by cases heq), fun _ ↦ .inr hk⟩
  | empty hempty hopen hk => exact ⟨fun _ _ heq ↦ (by cases heq), fun _ ↦ .inr hk⟩
  | wakeReaders | writeSleep | readSleep => exact ⟨fun _ _ _ ↦ rfl, fun _ ↦ .inl rfl⟩
  | _ => exact ⟨fun _ _ heq ↦ (by cases heq), fun hgap ↦ absurd hgap Bool.false_ne_true⟩

theorem heeding_of_reachable
    (h : (pipe π).ReachableUnder (Monitor.KillsOutside fun pc ↦ pc.tested = true) m) :
    m.Heeding fun pc ↦ pc.tested = true := by
  refine h.invariant (fun m hm p hp ↦ ?_) fun m a m' _ hI hkill hs ↦ ?_
  · rw [hm.pc, hm.chan] at hp
    exact absurd hp (by simp [PipePc.tested])
  · exact hI.step hs hkill fun p x i hi ↦ (move_of_code hi).tests

theorem exists_step_sleep (hpc : (m.thread p).pc.tested = true)
    (hlast : ∀ addr i, (m.thread p).pc ≠ .writeFull addr i) (hchan : (m.thread p).chan = none) :
    ∃ m', (pipe π).step m (.go p .go) = some m' ∧ (m'.thread p).chan ≠ none ∧
      (m'.thread p).killed = (m.thread p).killed := by
  have hsleep {c : PipeChan} {pc : PipePc}
      (hcode : code p .go (m.thread p).pc (m.thread p).killed m.data = some (.sleep c pc)) :
      ∃ m', (pipe π).step m (.go p .go) = some m' ∧ (m'.thread p).chan ≠ none ∧
        (m'.thread p).killed = (m.thread p).killed := by
    refine ⟨m.sleep p c pc, Monitor.step_go hchan hcode, ?_, ?_⟩
    · rw [Monitor.sleep_self]
      exact Option.some_ne_none c
    · rw [Monitor.sleep_self]
  cases hplace : (m.thread p).pc with
  | writeFull addr i => exact absurd hplace (hlast addr i)
  | writeSleep addr i => exact hsleep (by rw [hplace]; rfl)
  | readSleep n => exact hsleep (by rw [hplace]; rfl)
  | _ =>
    rw [hplace] at hpc
    exact absurd hpc Bool.false_ne_true

/-- **A kill that comes after the test is lost**: the process goes on to its `sleep`. -/
theorem exists_run_of_kill (hpc : (m.thread p).pc.tested = true) :
    ∃ as m', (∀ a ∈ as, a = .go p .go) ∧ (pipe π).run m (.kill p :: as) = some m' ∧
      (m'.thread p).chan ≠ none ∧ (m'.thread p).killed = true := by
  have hself := Monitor.kill_self m p
  by_cases hfull : ∃ addr i, (m.thread p).pc = .writeFull addr i
  · obtain ⟨addr, i, hfull⟩ := hfull
    -- the `wakeup` in front of the `sleep` is not one for the process itself
    have hwake : (pipe π).step (m.kill p) (.go p .go) =
        some (((m.kill p).wakeup .nread).goto p (.writeSleep addr i)) := by
      have hcode : code p .go ((m.kill p).thread p).pc ((m.kill p).thread p).killed m.data =
          some (.wakeup .nread m.data (.writeSleep addr i)) := by
        rw [hself, hfull]
        rfl
      exact Monitor.step_go (by rw [hself]) hcode
    obtain ⟨m', hstep, hchan, hkilled⟩ := exists_step_sleep
      (m := ((m.kill p).wakeup .nread).goto p (.writeSleep addr i)) (p := p)
      (by rw [Monitor.goto_pc_self]; rfl)
      (by rw [Monitor.goto_pc_self]; exact fun _ _ heq ↦ by cases heq)
      (by
        rw [Monitor.goto_chan]
        by_contra hne
        obtain ⟨c, hc⟩ := Option.ne_none_iff_exists'.mp hne
        exact (Monitor.chan_of_kill (Monitor.chan_of_wakeup hc).1).1 rfl)
    refine ⟨[.go p .go, .go p .go], m', by simp, ?_, hchan, ?_⟩
    · show ((pipe π).step (m.kill p) (.go p .go)).bind _ = _
      rw [hwake]
      exact congrArg (Option.bind · some) hstep
    · rw [hkilled, Monitor.goto_killed, Monitor.wakeup_killed, hself]
  · obtain ⟨m', hstep, hchan, hkilled⟩ := exists_step_sleep (m := m.kill p) (p := p)
      (by rw [hself]; exact hpc) (by rw [hself]; exact fun addr i heq ↦ hfull ⟨addr, i, heq⟩)
      (by rw [hself])
    refine ⟨[.go p .go], m', by simp, congrArg (Option.bind · some) hstep, hchan, ?_⟩
    rw [hkilled, hself]

end Pipe

namespace Tty

variable {m : Monitor (Option π) TtyPc TtyChan (Tty π)} {s : Tty π} {p : Option π} {pc : TtyPc}
  {k : Bool} {i : Instr TtyPc TtyChan (Tty π)}

theorem Move.tests (h : Move k s p pc i) : i.Tests (fun pc ↦ pc.tested = true) pc k := by
  cases h with
  | empty hempty hk => exact ⟨fun _ _ heq ↦ (by cases heq), fun _ ↦ .inr hk⟩
  | readSleep => exact ⟨fun _ _ _ ↦ rfl, fun _ ↦ .inl rfl⟩
  | _ => exact ⟨fun _ _ heq ↦ (by cases heq), fun hgap ↦ absurd hgap Bool.false_ne_true⟩

theorem heeding_of_reachable
    (h : (tty π).ReachableUnder (Monitor.KillsOutside fun pc ↦ pc.tested = true) m) :
    m.Heeding fun pc ↦ pc.tested = true := by
  refine h.invariant (fun m hm p hp ↦ ?_) fun m a m' _ hI hkill hs ↦ ?_
  · rw [hm.pc, hm.chan] at hp
    exact absurd hp (by simp [TtyPc.tested])
  · exact hI.step hs hkill fun p x i hi ↦ (move_of_code hi).tests

theorem exists_run_of_kill {p : π} (hpc : (m.thread (some p)).pc.tested = true) :
    ∃ as m', (∀ a ∈ as, a = .go (some p) .go) ∧ (tty π).run m (.kill (some p) :: as) = some m' ∧
      (m'.thread (some p)).chan ≠ none ∧ (m'.thread (some p)).killed = true := by
  have hself := Monitor.kill_self m (some p)
  cases hplace : (m.thread (some p)).pc with
  | readSleep n target got =>
    have hstep : (tty π).step (m.kill (some p)) (.go (some p) .go) =
        some ((m.kill (some p)).sleep (some p) .inputR (.readSlept n target got)) := by
      have hcode : code (some p) .go ((m.kill (some p)).thread (some p)).pc
          ((m.kill (some p)).thread (some p)).killed m.data =
            some (.sleep .inputR (.readSlept n target got)) := by
        rw [hself, hplace]
        rfl
      exact Monitor.step_go (by rw [hself]) hcode
    refine ⟨[.go (some p) .go], _, by simp, congrArg (Option.bind · some) hstep, ?_, ?_⟩
    · rw [Monitor.sleep_self]
      exact Option.some_ne_none _
    · rw [Monitor.sleep_self, hself]
  | _ =>
    rw [hplace] at hpc
    exact absurd hpc Bool.false_ne_true

end Tty

/-- **Nobody sleeps in the loops of pipes and of the console who is killed**, as long as no kill
comes to a process between its test and its `sleep`; and every kill that does come there leaves its
process asleep. -/
theorem not_killed_of_asleep :
    (∀ m, (pipe π).ReachableUnder (Monitor.KillsOutside fun pc ↦ pc.tested = true) m →
      ∀ p, (m.thread p).chan ≠ none → (m.thread p).killed = false) ∧
    (∀ m p, (pipe π).Reachable m → (m.thread p).pc.tested = true →
      ∃ as m', (∀ a ∈ as, a = .go p .go) ∧ (pipe π).run m (.kill p :: as) = some m' ∧
        (m'.thread p).chan ≠ none ∧ (m'.thread p).killed = true) ∧
    (∀ m, (tty π).ReachableUnder (Monitor.KillsOutside fun pc ↦ pc.tested = true) m →
      ∀ p : π, (m.thread (some p)).chan ≠ none → (m.thread (some p)).killed = false) ∧
    ∀ m, ∀ p : π, (tty π).Reachable m → (m.thread (some p)).pc.tested = true →
      ∃ as m', (∀ a ∈ as, a = .go (some p) .go) ∧
        (tty π).run m (.kill (some p) :: as) = some m' ∧
        (m'.thread (some p)).chan ≠ none ∧ (m'.thread (some p)).killed = true := by
  refine ⟨fun m hm p hp ↦ ?_, fun m p _ hpc ↦ Pipe.exists_run_of_kill hpc, fun m hm p hp ↦ ?_,
    fun m p _ hpc ↦ Tty.exists_run_of_kill hpc⟩
  · exact Pipe.heeding_of_reachable hm p (.inr hp)
  · exact Tty.heeding_of_reachable hm (some p) (.inr hp)

instance {Pc χ D X : Type} [Fintype π] [DecidableEq X] {gap : Pc → Prop} [DecidablePred gap]
    {m : Monitor π Pc χ D} {a : MonitorAct π X} : Decidable (m.KillsOutside gap a) :=
  inferInstanceAs (Decidable (∀ _, _))

/-- One reader of an empty pipe is killed while it sleeps, and the other one sleeps on. -/
theorem not_killed_of_asleep_two : ∃ m, (pipe (Fin 2)).ReachableUnder
    (Monitor.KillsOutside fun pc ↦ pc.tested = true) m ∧ (m.thread 1).killed = true ∧
      (m.thread 0).chan ≠ none ∧ (m.thread 0).killed = false := by
  obtain ⟨m, hm, hrun⟩ := Machine.exists_reachableUnder_of_run (M := pipe (Fin 2))
    (G := Monitor.KillsOutside fun pc ↦ pc.tested = true)
    [.go 0 (.piperead 1), .go 0 .go, .go 0 .go, .go 0 .go,
      .go 1 (.piperead 1), .go 1 .go, .go 1 .go, .go 1 .go, .kill 1]
    (fun m ↦ (m.thread 1).killed = true ∧ (m.thread 0).chan ≠ none) Pipe.initial_fresh
    (by decide +kernel)
  obtain ⟨hkilled, hchan⟩ := of_decide_eq_true hrun
  exact ⟨m, hm, hkilled, hchan, not_killed_of_asleep.1 m hm 0 hchan⟩

/-- A reader of an empty pipe, or of the console, finds that it is not killed, is killed, and
sleeps. -/
theorem exists_killed_asleep :
    (∃ m, (pipe (Fin 1)).Reachable m ∧ (m.thread 0).chan = some .nread ∧
      (m.thread 0).killed = true) ∧
    ∃ m, (tty (Fin 1)).Reachable m ∧ (m.thread (some 0)).chan = some .inputR ∧
      (m.thread (some 0)).killed = true := by
  constructor
  · obtain ⟨m, hm, hrun⟩ := Machine.exists_reachable_of_run (M := pipe (Fin 1))
      [.go 0 (.piperead 1), .go 0 .go, .go 0 .go, .kill 0, .go 0 .go]
      (fun m ↦ (m.thread 0).chan = some .nread ∧ (m.thread 0).killed = true) Pipe.initial_fresh
      (by decide +kernel)
    exact ⟨m, hm, of_decide_eq_true hrun⟩
  · obtain ⟨m, hm, hrun⟩ := Machine.exists_reachable_of_run (M := tty (Fin 1))
      [.go (some 0) (.consoleread 1), .go (some 0) .go, .go (some 0) .go, .kill (some 0),
        .go (some 0) .go]
      (fun m ↦ (m.thread (some 0)).chan = some .inputR ∧ (m.thread (some 0)).killed = true)
      Tty.initial_boot (by decide +kernel)
    exact ⟨m, hm, of_decide_eq_true hrun⟩

end OperatingSystems
