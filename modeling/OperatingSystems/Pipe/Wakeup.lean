import OperatingSystems.Pipe.Fifo

/-!
# Who sleeps on a pipe

A reader sleeps while the buffer is empty and the write end open, a writer while the buffer is full
and the read end open. Each change of these conditions is followed by a `wakeup` before `p->lock` is
released, with one exception: `pipewrite` returns -1 from its loop when it is killed, or the read
end is closed, without the `wakeup(&p->nread)` that it owes for the bytes stored before. Readers
that slept through the call go on sleeping in front of a full buffer then.

No run is affected in which no writer gives up while somebody sleeps on `&p->nread`, and each step
that does so is a failure at once.
-/

namespace OperatingSystems

namespace PipePc

/-- The places in the lock from which a `wakeup` on a channel is still to come. -/
def owes : PipePc → PipeChan → Bool
  | writeLoop .., .nread | writeFull .., .nread | writeWake .., .nread => true
  | readCopy .., .nwrite | readWake .., .nwrite => true
  | _, _ => false

/-- In the loop of `pipewrite`, with a byte to store. -/
def storing : PipePc → Bool
  | writeLoop addr i => i < addr.length
  | _ => false

theorem exists_of_storing {pc : PipePc} (h : pc.storing = true) :
    ∃ addr i, pc = writeLoop addr i ∧ i < addr.length := by
  cases pc with
  | writeLoop addr i => exact ⟨addr, i, rfl, of_decide_eq_true h⟩
  | _ => exact absurd h Bool.false_ne_true

end PipePc

namespace Pipe

variable {π : Type} {s : Pipe π}

def Waits : PipeChan → Pipe π → Prop
  | .nread, s => s.Empty ∧ s.writeopen = true
  | .nwrite, s => s.Full ∧ s.readopen = true

theorem Full.not_empty (h : s.Full) : ¬s.Empty := by
  intro hempty
  have hsum : s.nread + 0#32 = s.nread + BitVec.ofNat 32 pipeSize := by
    rw [BitVec.add_zero]
    exact hempty.trans h
  exact absurd ((BitVec.add_right_inj _).mp hsum) (by decide)

/-- What was tested before a `sleep` is so until then. -/
def Tested (pc : PipePc) (s : Pipe π) : Prop :=
  match pc with
  | .writeFull .. | .writeSleep .. => Waits .nwrite s
  | .readSleep .. => Waits .nread s
  | _ => True

variable [DecidableEq π] {m m' : Monitor π PipePc PipeChan (Pipe π)} {p : π} {pc : PipePc}
  {k : Bool} {i : Instr PipePc PipeChan (Pipe π)}

theorem Move.tested (h : Move p k s pc i) : i.Keeps (fun _ ↦ True) (fun _ ↦ Tested) p pc s := by
  cases h with
  | full hfull hopen hk => exact fun _ ↦ ⟨hfull, hopen⟩
  | empty hempty hopen hk => exact fun _ ↦ ⟨hempty, hopen⟩
  | wakeReaders addr i => exact id
  | callWrite | callRead | callClose => trivial
  | _ => exact fun _ ↦ trivial

/-- The buffer is full, and the process in the loop of `pipewrite` will return -1. -/
def GivesUp (m : Monitor π PipePc PipeChan (Pipe π)) (p : π) : Prop :=
  (m.thread p).pc.storing = true ∧ m.data.Full ∧
    (m.data.readopen = false ∨ (m.thread p).killed = true)

instance : Decidable (GivesUp m p) := inferInstanceAs (Decidable (_ ∧ _))

/-- No writer gives up while somebody sleeps on `&p->nread`. -/
def Careful (m : Monitor π PipePc PipeChan (Pipe π)) (a : MonitorAct π PipeInput) : Prop :=
  ∀ p, a = .go p .go → GivesUp m p → ∀ q, (m.thread q).chan ≠ some .nread

instance [Fintype π] {a : MonitorAct π PipeInput} : Decidable (Careful m a) :=
  inferInstanceAs (Decidable (∀ _, _))

/-- **Each instruction pays its debts**, but that with which a writer gives up. -/
theorem Move.wakes (h : Move p k s pc i) (ht : Tested pc s) {sleeps : PipeChan → Prop}
    (hup : pc.storing = true → s.Full → s.readopen = false ∨ k = true → ¬sleeps .nread) :
    i.Wakes Waits (fun pc c ↦ pc.owes c = true) pc s sleeps := by
  have hpaid {c : PipeChan} {pc : PipePc} (hc : pc.owes c = false)
      (h : Waits c s ∨ pc.owes c = true) : Waits c s :=
    h.resolve_right (by rw [hc]; exact Bool.false_ne_true)
  cases h with
  | callWrite | callRead | callClose | write | writeAgain | read | readAgain | close => trivial
  | store hc hfull =>
    intro c _ h
    cases c with
    | nread => exact .inr rfl
    | nwrite => exact absurd (hpaid rfl h).1 hfull
  | giveUp hi hfull hgone =>
    intro c hc h
    cases c with
    | nread => exact absurd hc (hup (decide_eq_true hi) hfull hgone)
    | nwrite => exact hpaid rfl h
  | full | writeEnd =>
    intro c _ h
    cases c with
    | nread => exact .inr rfl
    | nwrite => exact .inl (hpaid rfl h)
  | wakeReaders | writeWake =>
    intro c _ hne h
    cases c with
    | nread => exact absurd rfl hne
    | nwrite => exact .inl (hpaid rfl h)
  | writeSleep | readSleep =>
    refine ⟨ht, fun c _ h ↦ ?_⟩
    cases c <;> exact hpaid rfl h
  | writeDone | readKilled | closeDone | readDone =>
    intro c _ h
    cases c <;> exact hpaid rfl h
  | empty =>
    intro c _ h
    cases c <;> exact .inl (hpaid rfl h)
  | readStart hgo =>
    intro c _ h
    cases c <;> exact .inl (hpaid rfl h)
  | copy hlt hempty =>
    intro c _ h
    cases c with
    | nread => exact absurd (hpaid rfl h).1 hempty
    | nwrite => exact .inr rfl
  | readEnd hend =>
    intro c _ h
    cases c with
    | nread => exact .inl (hpaid rfl h)
    | nwrite => exact .inr rfl
  | readWake =>
    intro c _ hne h
    cases c with
    | nread => exact .inl (hpaid rfl h)
    | nwrite => exact absurd rfl hne
  | clear w =>
    intro c _ hne h
    cases w <;> cases c
    · exact .inl (hpaid rfl h)
    · exact absurd rfl hne
    · exact absurd rfl hne
    · exact .inl (hpaid rfl h)

structure Wakeful (m : Monitor π PipePc PipeChan (Pipe π)) : Prop where
  outline : m.Outline (fun pc ↦ pc.holds = true) (fun _ ↦ True) fun _ ↦ Tested
  attended : m.Attended Waits fun pc c ↦ pc.owes c = true

omit [DecidableEq π] in
theorem Wakeful.of_initial (h : Initial m) : Wakeful m := by
  refine ⟨.of_outside h.lock (fun p ↦ ?_) trivial, fun q c hc ↦ ?_⟩
  · rw [h.pc]
    exact Bool.false_ne_true
  · rw [h.chan] at hc
    exact absurd hc.symm (Option.some_ne_none c)

theorem Wakeful.step {a : MonitorAct π PipeInput} (h : Wakeful m) (hcareful : Careful m a)
    (hs : m.step code a = some m') : Wakeful m' := by
  refine ⟨h.outline.step hs fun p x i _ hi ↦ ?_, h.attended.step h.outline hs ?_⟩
  · exact ⟨(move_of_code hi).fits, (move_of_code hi).tested⟩
  · intro p x i ha hi
    have hmove := move_of_code hi
    refine ⟨hmove.fits, hmove.wakes ?_ ?_⟩
    · refine h.outline.at_pc p fun pc hout ↦ ?_
      cases pc with
      | writeFull | writeSleep | readSleep => exact absurd rfl hout
      | _ => trivial
    · rintro hstoring hfull hgone ⟨q, hq⟩
      obtain ⟨addr, j, hpc, -⟩ := PipePc.exists_of_storing hstoring
      have hx : x = .go := by
        rw [hpc] at hi
        cases x with
        | go => rfl
        | _ => exact absurd hi.symm (Option.some_ne_none i)
      rw [hx] at ha
      exact hcareful p ha ⟨hstoring, hfull, hgone⟩ q hq

theorem GivesUp.code_eq (h : GivesUp m p) : ∃ bs,
    code p .go (m.thread p).pc (m.thread p).killed m.data =
      some (.release (m.data.noteWrite p bs) (.idle (-1))) := by
  obtain ⟨hstoring, hfull, hgone⟩ := h
  obtain ⟨addr, i, hpc, hi⟩ := PipePc.exists_of_storing hstoring
  refine ⟨addr.take i, ?_⟩
  rw [hpc]
  simp only [code, writeLoop, List.getElem?_eq_getElem hi]
  rw [if_pos hfull, if_pos (by simpa using hgone)]

theorem GivesUp.step (h : GivesUp m p) (hs : m.step code (.go p .go) = some m') :
    m'.lock = none ∧ m'.data.Full ∧ ∀ q, q ≠ p → m'.thread q = m.thread q := by
  obtain ⟨q, ha, -⟩ | ⟨q, x, i, ha, hchan, hi, hexec⟩ := Monitor.step_cases hs
  · cases ha
  · cases ha
    obtain ⟨bs, hcode⟩ := h.code_eq
    obtain rfl := Option.some.inj (hi.symm.trans hcode)
    rw [← Option.some.inj hexec]
    exact ⟨rfl, h.2.1, fun q hq ↦ Monitor.goto_of_ne hq _⟩

/-- **No lost wakeup**, in a run in which no writer gives up while a reader sleeps. A step with
which a writer does so ends in a state with a free lock and with a reader that sleeps in front of a
full buffer. -/
theorem waits_of_careful :
    (∀ m, (pipe π).ReachableUnder Careful m → m.lock = none →
      ∀ q c, (m.thread q).chan = some c → Waits c m.data) ∧
    ∀ m m' a, (pipe π).Reachable m → (pipe π).step m a = some m' → ¬Careful m a →
      m'.lock = none ∧ ∃ q, (m'.thread q).chan = some .nread ∧ ¬Waits .nread m'.data := by
  refine ⟨fun m hm hlock q c hc ↦ ?_, fun m m' a _ hs hcare ↦ ?_⟩
  · have hwake : Wakeful m := hm.invariant (fun _ ↦ .of_initial)
      fun _ _ _ _ hI hcare hs ↦ hI.step hcare hs
    refine (hwake.attended q c hc).resolve_right ?_
    rintro ⟨p, hp, -⟩
    exact Option.some_ne_none p (hp.symm.trans hlock)
  · unfold Careful at hcare
    push Not at hcare
    obtain ⟨p, rfl, hup, q, hq⟩ := hcare
    have hs : m.step code (.go p .go) = some m' := hs
    obtain ⟨hlock, hfull, hothers⟩ := hup.step hs
    have hqp : q ≠ p := by
      rintro rfl
      rw [Monitor.step, hq] at hs
      exact Option.some_ne_none m' hs.symm
    exact ⟨hlock, q, by rw [hothers q hqp, hq], fun hwait ↦ hfull.not_empty hwait.1⟩

/-- A reader sleeps at an empty pipe. -/
theorem waits_of_careful_empty : ∃ m, (pipe (Fin 2)).ReachableUnder Careful m ∧
    (m.thread 1).chan = some .nread ∧ Waits .nread m.data := by
  obtain ⟨m, hm, hread⟩ := Machine.exists_reachableUnder_of_run (M := pipe (Fin 2)) (G := Careful)
    [.go 1 (.piperead 1), .go 1 .go, .go 1 .go, .go 1 .go]
    (fun m ↦ m.lock = none ∧ (m.thread 1).chan = some .nread) initial_fresh (by decide +kernel)
  obtain ⟨hlock, hchan⟩ := of_decide_eq_true hread
  exact ⟨m, hm, hchan, waits_of_careful.1 m hm hlock 1 .nread hchan⟩

/-! ## A reader in front of a full buffer -/

theorem exists_run_store {addr : List Byte} {t : Thread PipePc PipeChan}
    (hp : m.thread p = { t with pc := .writeLoop addr 0, chan := none }) (hempty : m.data.Empty)
    {j : ℕ} (hj : j ≤ addr.length) (hsize : j ≤ pipeSize) :
    ∃ m', (pipe π).run m (List.replicate j (.go p .go)) = some m' ∧
      m'.thread p = { t with pc := .writeLoop addr j, chan := none } ∧
      (∀ q, q ≠ p → m'.thread q = m.thread q) ∧ m'.data.nread = m.data.nread ∧
      m'.data.nwrite = m.data.nread + BitVec.ofNat 32 j := by
  induction j with
  | zero => exact ⟨m, rfl, hp, fun _ _ ↦ rfl, rfl, by rw [← hempty]; exact (BitVec.add_zero _).symm⟩
  | succ j ih =>
    obtain ⟨m', hrun, hthread, hothers, hread, hwrite⟩ := ih (Nat.le_of_succ_le hj)
      (Nat.le_of_succ_le hsize)
    have hfull : ¬m'.data.Full := by
      rw [Full, hwrite, hread, BitVec.add_right_inj]
      intro heq
      have hlt := (Nat.lt_of_succ_le hsize).trans pipeSize_lt
      have hj :=
        (ofNat_add_inj (a := 0) hlt pipeSize_lt).mp (by simpa only [Nat.zero_add] using heq)
      exact (Nat.lt_of_succ_le hsize).ne hj
    have hcode : code p .go (m'.thread p).pc (m'.thread p).killed m'.data =
        some (.go (m'.data.store p addr[j]) (.writeLoop addr (j + 1))) := by
      rw [hthread]
      simp only [code, writeLoop, List.getElem?_eq_getElem hj, if_neg hfull]
    have hstep := Monitor.step_go (by rw [hthread]) hcode
    refine ⟨{ m'.goto p (.writeLoop addr (j + 1)) with data := m'.data.store p addr[j] },
      ?_, ?_, ?_, hread, ?_⟩
    · rw [List.replicate_succ', Machine.run_append, hrun]
      exact congrArg (Option.bind · some) hstep
    · refine (Monitor.setThread_self m' p _).trans ?_
      rw [hthread]
    · intro q hq
      exact (Monitor.goto_of_ne hq _).trans (hothers q hq)
    · have hnwrite : (m'.data.store p addr[j]).nwrite = m'.data.nwrite + 1 := rfl
      dsimp only
      rw [hnwrite, hwrite, BitVec.add_assoc, BitVec.ofNat_add]
      rfl

/-- A reader sleeps, a writer with more bytes than there is room for is killed, and gives up when
the buffer is full: the reader goes on sleeping. -/
theorem exists_sleeper_at_full : ∃ m, (pipe (Fin 2)).Reachable m ∧ m.lock = none ∧
    (m.thread 1).chan = some .nread ∧ ¬Waits .nread m.data := by
  obtain ⟨m, hm, hstart⟩ := Machine.exists_reachable_of_run (M := pipe (Fin 2))
    [.go 1 (.piperead 1), .go 1 .go, .go 1 .go, .go 1 .go,
      .go 0 (.pipewrite (List.replicate 513 0)), .go 0 .go, .kill 0]
    (fun m ↦ (m.thread 0).pc = .writeLoop (List.replicate 513 0) 0 ∧ (m.thread 0).chan = none ∧
      (m.thread 0).killed = true ∧ (m.thread 1).chan = some .nread ∧ m.data.Empty)
    initial_fresh (by decide +kernel)
  obtain ⟨hpc, hchan, hkilled, hreader, hempty⟩ := of_decide_eq_true hstart
  obtain ⟨addr, haddr, hlen⟩ : ∃ addr, List.replicate 513 (0 : Byte) = addr ∧
      addr.length = pipeSize + 1 := ⟨_, rfl, List.length_replicate⟩
  rw [haddr] at hpc
  obtain ⟨m₁, hrun, hthread, hothers, hread, hwrite⟩ := exists_run_store (p := 0) (j := pipeSize)
    (t := m.thread 0) (by rw [← hpc, ← hchan]) hempty (by rw [hlen]; exact Nat.le_succ _) le_rfl
  have hup : GivesUp m₁ 0 := by
    unfold GivesUp
    rw [hthread]
    exact ⟨decide_eq_true (by rw [hlen]; exact Nat.lt_succ_self _), by rw [Full, hwrite, hread],
      .inr hkilled⟩
  obtain ⟨bs, hcode⟩ := hup.code_eq
  have hstep : (pipe (Fin 2)).step m₁ (.go 0 .go) = _ := Monitor.step_go (by rw [hthread]) hcode
  obtain ⟨hlock, hfull, hrest⟩ := hup.step hstep
  refine ⟨_, (hm.run hrun).step hstep, hlock, ?_, fun hwait ↦ hfull.not_empty hwait.1⟩
  rw [hrest 1 (by decide), hothers 1 (by decide), hreader]

end Pipe

end OperatingSystems
