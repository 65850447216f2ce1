import OperatingSystems.Lib.Fifo
import OperatingSystems.Pipe.Basic

/-!
# A pipe is a bounded first-in first-out queue

The bytes that were stored in a pipe are those that `piperead` has returned, those that a call which
is still copying has got, and those in the buffer, in this order (`Queue`). The counters are words
that wrap, but `PIPESIZE` divides 2 ^ 32, and there are at most `PIPESIZE` bytes between them.

The queue is what `p->lock` protects; what each writer has stored is an assertion about each
process.
-/

namespace OperatingSystems

open Function

namespace PipePc

def got : PipePc → List Byte
  | readCopy _ got | readWake _ got | readDone _ got => got
  | _ => []

def written : PipePc → List Byte
  | writeLoop addr i | writeFull addr i | writeSleep addr i | writeSlept addr i => addr.take i
  | writeWake addr | writeDone addr => addr
  | _ => []

/-- The call is `piperead` of `n` bytes. -/
def reading : PipePc → Option ℕ
  | readAcquire n | readLoop n | readSleep n | readSlept n | readCopy n _ | readWake n _
  | readDone n _ => some n
  | _ => none

end PipePc

namespace Pipe

variable {π : Type} {s : Pipe π} {got : List Byte} {p : π}

def contents (s : Pipe π) : List Byte :=
  (List.range (s.nwrite - s.nread).toNat).map fun k ↦
    s.data ((s.nread + BitVec.ofNat 32 k).toNat % pipeSize)

/-- What `p->lock` protects, while its holder has got `got`. -/
def Queue (got : List Byte) (s : Pipe π) : Prop :=
  ∃ rest, s.stored.map Prod.snd = s.delivered.flatten ++ got ++ rest ∧
    RingHolds pipeSize s.data (s.delivered.flatten ++ got).length rest ∧
    s.nread = BitVec.ofNat 32 (s.delivered.flatten ++ got).length ∧
    s.nwrite = BitVec.ofNat 32 ((s.delivered.flatten ++ got).length + rest.length)

theorem pipeSize_dvd : pipeSize ∣ 2 ^ 32 := by decide

theorem pipeSize_lt : pipeSize < 2 ^ 32 := by decide

theorem Queue.exists_contents (h : s.Queue got) :
    s.stored.map Prod.snd = s.delivered.flatten ++ got ++ s.contents ∧
      (s.nwrite - s.nread).toNat ≤ pipeSize := by
  obtain ⟨rest, hstored, hring, hr, hw⟩ := h
  have hlen : (s.nwrite - s.nread).toNat = rest.length := by
    rw [hw, hr]
    exact toNat_ofNat_sub (hring.length_le.trans_lt pipeSize_lt)
  have hrest : s.contents = rest := by
    unfold contents
    refine List.ext_getElem (by rw [List.length_map, List.length_range, hlen]) fun k _ hk ↦ ?_
    rw [List.getElem_map, List.getElem_range, hr, ← BitVec.ofNat_add,
      ofNat_toNat_mod pipeSize_dvd]
    exact hring.cell k hk
  exact ⟨hrest ▸ hstored, hlen ▸ hring.length_le⟩

theorem Queue.store (h : s.Queue got) (hfull : ¬s.Full) (p : π) (c : Byte) :
    (s.store p c).Queue got := by
  obtain ⟨rest, hstored, hring, hr, hw⟩ := h
  have hlt : rest.length < pipeSize := by
    refine hring.length_le.lt_of_ne fun heq ↦ hfull ?_
    rw [Full, hw, hr, ← BitVec.ofNat_add, heq]
  refine ⟨rest ++ [c], ?_, ?_, hr, ?_⟩
  · rw [Pipe.store, List.map_append, hstored, List.append_assoc]
    rfl
  · rw [Pipe.store, hw, ofNat_toNat_mod pipeSize_dvd]
    exact hring.push hlt c
  · have hlen : (rest ++ [c]).length = rest.length + 1 := by simp
    rw [Pipe.store, hw, hlen, ← Nat.add_assoc]
    exact (BitVec.ofNat_add _ 1).symm

theorem Queue.take (h : s.Queue got) (hempty : ¬s.Empty) : s.take.Queue (got ++ [s.front]) := by
  obtain ⟨rest, hstored, hring, hr, hw⟩ := h
  cases rest with
  | nil => exact absurd (hr.trans hw.symm) hempty
  | cons c rest =>
    have hfront : s.front = c := by
      rw [front, hr, ofNat_toNat_mod pipeSize_dvd]
      exact hring.head
    have hlen : (s.delivered.flatten ++ (got ++ [c])).length =
        (s.delivered.flatten ++ got).length + 1 := by
      rw [← List.append_assoc, List.length_append, List.length_singleton]
    rw [hfront]
    refine ⟨rest, ?_, ?_, ?_, ?_⟩
    · rw [Pipe.take, hstored]
      simp only [List.append_assoc, List.cons_append, List.nil_append]
    · rw [Pipe.take, hlen]
      exact hring.tail
    · rw [Pipe.take, hlen, hr]
      exact (BitVec.ofNat_add _ 1).symm
    · rw [Pipe.take, hlen, hw, List.length_cons, Nat.add_assoc, Nat.add_comm 1]

theorem Queue.noteRead (h : s.Queue got) : (s.noteRead got).Queue [] := by
  have hflat : (s.delivered ++ [got]).flatten ++ [] = s.delivered.flatten ++ got := by simp
  unfold Queue Pipe.noteRead
  dsimp only
  rw [hflat]
  exact h

theorem Queue.clearOpen (h : s.Queue got) (w : Bool) : (s.clearOpen w).Queue got := by
  cases w <;> exact h

/-- What holds at a place in `p->lock`: a call of `piperead` with no bytes yet found some, or found
the write end closed. -/
def At (pc : PipePc) (s : Pipe π) : Prop :=
  s.Queue pc.got ∧
    match pc with
    | .readCopy _ got => got = [] → s.Empty → s.writeopen = false
    | .readWake n got | .readDone n got =>
      0 < n → got = [] → s.Empty ∧ s.writeopen = false
    | _ => True

variable [DecidableEq π] {m m' : Monitor π PipePc PipeChan (Pipe π)} {pc : PipePc} {k : Bool}
  {i : Instr PipePc PipeChan (Pipe π)}

theorem Move.keeps (h : Move p k s pc i) : i.Keeps (Queue []) (fun _ ↦ At) p pc s := by
  cases h with
  | callWrite | callRead | callClose => trivial
  | write | writeAgain | read | readAgain | close => exact fun hq ↦ ⟨hq, trivial⟩
  | store hc hfull => exact fun hat ↦ ⟨hat.1.store hfull p _, trivial⟩
  | giveUp | writeDone | writeSleep | readKilled | readSleep | closeDone => exact fun hat ↦ hat.1
  | full | writeEnd | wakeReaders | writeWake | empty => exact fun hat ↦ ⟨hat.1, trivial⟩
  | readStart hgo => exact fun hat ↦ ⟨hat.1, fun _ ↦ hgo⟩
  | copy hlt hempty =>
    intro hat
    exact ⟨hat.1.take hempty,
      fun hnil ↦ absurd hnil (List.append_ne_nil_of_right_ne_nil _ (by simp))⟩
  | readEnd hend =>
    rintro ⟨hq, hopen⟩
    refine ⟨hq, fun hn hnil ↦ ?_⟩
    have hempty := hend (by rw [hnil]; exact hn)
    exact ⟨hempty, hopen hnil hempty⟩
  | readWake n got => exact id
  | readDone n got => exact fun hat ↦ hat.1.noteRead
  | clear w => exact fun hat ↦ ⟨hat.1.clearOpen w, trivial⟩

/-- The bytes that a process stored are those of its earlier calls and of the current one. -/
def Wrote (p : π) (pc : PipePc) (s : Pipe π) : Prop :=
  (s.stored.filter fun b ↦ b.1 = p).map Prod.snd = s.wrote p ++ pc.written

theorem Move.wrote_of_ne {q : π} {pcq : PipePc} (h : Move p k s pc i) (hq : q ≠ p)
    (hw : Wrote q pcq s) : Wrote q pcq (i.data s) := by
  cases h with
  | store hc hfull =>
    unfold Wrote Instr.data Pipe.store
    dsimp only
    rw [List.filter_append, List.filter_cons_of_neg (by simpa using hq.symm), List.filter_nil,
      List.append_nil]
    exact hw
  | giveUp hi hfull hgone =>
    unfold Wrote Instr.data noteWrite
    dsimp only
    rw [update_of_ne hq]
    exact hw
  | writeDone addr =>
    unfold Wrote Instr.data noteWrite
    dsimp only
    rw [update_of_ne hq]
    exact hw
  | clear w => cases w <;> exact hw
  | _ => exact hw

theorem wrote_noteWrite {bs : List Byte} {r : ℤ}
    (h : (s.stored.filter fun b ↦ b.1 = p).map Prod.snd = s.wrote p ++ bs) :
    Wrote p (.idle r) (s.noteWrite p bs) := by
  unfold Wrote noteWrite
  dsimp only
  rw [update_self, PipePc.written, List.append_nil]
  · exact h
  all_goals exact fun _ ↦ by simp

theorem Move.wrote (h : Move p k s pc i) (hw : Wrote p pc s) : Wrote p i.next (i.data s) := by
  cases h with
  | store hc hfull =>
    obtain ⟨hi, rfl⟩ := List.getElem?_eq_some_iff.mp hc
    unfold Wrote at hw ⊢
    unfold Instr.data Instr.next Pipe.store
    dsimp only [PipePc.written] at hw ⊢
    rw [List.filter_append, List.map_append, hw, List.append_assoc, List.take_add_one,
      List.filter_cons_of_pos (by simp)]
    simp [hi]
  | giveUp hi hfull hgone => exact wrote_noteWrite hw
  | writeDone addr => exact wrote_noteWrite hw
  | writeEnd hi =>
    unfold Wrote at hw ⊢
    rwa [PipePc.written, List.take_of_length_le hi] at hw
  | clear w => cases w <;> exact hw
  | _ => exact hw

structure Inv (m : Monitor π PipePc PipeChan (Pipe π)) : Prop where
  outline : m.Outline (fun pc ↦ pc.holds = true) (Queue []) fun _ ↦ At
  wrote : ∀ p, Wrote p (m.thread p).pc m.data

theorem Inv.of_initial (h : Initial m) : Inv m := by
  refine ⟨.of_outside h.lock (fun p ↦ ?_) ⟨[], ?_, .nil .., ?_, ?_⟩, fun p ↦ ?_⟩
  · rw [h.pc]
    exact Bool.false_ne_true
  · rw [h.stored, h.delivered]
    rfl
  · rw [h.nread, h.delivered]
    rfl
  · rw [h.nwrite, h.delivered]
    rfl
  · rw [Wrote, h.stored, h.wrote, h.pc]
    rfl

theorem Inv.step {a : MonitorAct π PipeInput} (h : Inv m) (hs : m.step code a = some m') :
    Inv m' := by
  refine ⟨h.outline.step hs fun p x i _ hi ↦ ?_, Monitor.forall_local_step h.wrote hs ?_⟩
  · exact ⟨(move_of_code hi).fits, (move_of_code hi).keeps⟩
  · intro p x i hi
    exact ⟨(move_of_code hi).wrote (h.wrote p), fun q hq ↦
      (move_of_code hi).wrote_of_ne hq (h.wrote q)⟩

theorem inv_of_reachable (h : (pipe π).Reachable m) : Inv m :=
  h.invariant (fun _ ↦ .of_initial) fun _ _ _ hI hs ↦ hI.step hs

theorem Inv.queue (h : Inv m) : ∃ got, m.data.Queue got ∧
    ∀ p, m.lock = some p → got = (m.thread p).pc.got := by
  cases hlock : m.lock with
  | none => exact ⟨[], h.outline.free hlock, fun p hp ↦ absurd hp.symm (Option.some_ne_none p)⟩
  | some p =>
    refine ⟨_, (h.outline.held p hlock).1, fun q hq ↦ ?_⟩
    rw [Option.some.inj hq]

theorem Move.of_return_zero {n : ℕ} (h : Move p k s pc i) (hn : pc.reading = some n)
    (hi : i.next = .idle 0) : pc = .readDone n [] := by
  cases h with
  | readDone n' got =>
    have hlen : (got.length : ℤ) = 0 := PipePc.idle.inj hi
    obtain rfl : got = [] := List.length_eq_zero_iff.mp (by exact_mod_cast hlen)
    rw [Option.some.inj hn]
  | readKilled hempty hopen hk => exact absurd (PipePc.idle.inj hi) (by decide)
  | closeDone => exact absurd hn.symm (Option.some_ne_none n)
  | giveUp hlt hfull hgone => exact absurd (PipePc.idle.inj hi) (by decide)
  | writeDone addr => exact absurd hn.symm (Option.some_ne_none n)
  | _ => exact absurd hi (by simp [Instr.next])

/-- **A pipe is a lossless bounded queue**, for any interleaving of the calls of any processes.
There are at most `PIPESIZE` bytes between the counters; what was stored is what `piperead`
returned, what the process in the lock has got, and what is in the buffer; each writer's bytes are
stored in its order; and `piperead` returns 0 only at the end of an empty pipe. -/
theorem stored_eq_delivered_append (h : (pipe π).Reachable m) :
    (m.data.nwrite - m.data.nread).toNat ≤ pipeSize ∧
    m.data.delivered.flatten <+: m.data.stored.map Prod.snd ∧
    (m.lock = none → m.data.stored.map Prod.snd = m.data.delivered.flatten ++ m.data.contents) ∧
    (∀ p, m.lock = some p → m.data.stored.map Prod.snd =
      m.data.delivered.flatten ++ (m.thread p).pc.got ++ m.data.contents) ∧
    (∀ p, (m.data.stored.filter fun b ↦ b.1 = p).map Prod.snd =
      m.data.wrote p ++ (m.thread p).pc.written) ∧
    ∀ p x m' n, (pipe π).step m (.go p x) = some m' → (m.thread p).pc.reading = some n → 0 < n →
      (m'.thread p).pc = .idle 0 → m.data.Empty ∧ m.data.writeopen = false := by
  have hI := inv_of_reachable h
  obtain ⟨got, hq, hgot⟩ := hI.queue
  obtain ⟨hstored, hle⟩ := hq.exists_contents
  refine ⟨hle, ?_, fun hfree ↦ ?_, fun p hp ↦ ?_, hI.wrote, ?_⟩
  · rw [hstored, List.append_assoc]
    exact List.prefix_append _ _
  · rw [(hI.outline.free hfree).exists_contents.1, List.append_nil]
  · rw [hstored, hgot p hp]
  · intro p x m' n hs hreading hn hret
    have hs : m.step code (.go p x) = some m' := hs
    obtain ⟨q, ha, -⟩ | ⟨q, y, i, ha, -, hi, hexec⟩ := Monitor.step_cases hs
    · cases ha
    · cases ha
      rw [Monitor.exec_pc hexec] at hret
      have hpc := (move_of_code hi).of_return_zero hreading hret
      have hlock := (hI.outline.excl p).mp (by rw [hpc]; rfl)
      have hat := hI.outline.held p hlock
      rw [hpc] at hat
      exact hat.2 hn rfl

/-- One process writes two bytes, and the other one reads them. -/
theorem stored_eq_delivered_append_two : ∃ m, (pipe (Fin 2)).Reachable m ∧
    m.data.delivered = [[1, 2]] ∧ m.data.delivered.flatten <+: m.data.stored.map Prod.snd := by
  obtain ⟨m, hm, hread⟩ := Machine.exists_reachable_of_run (M := pipe (Fin 2))
    (.go 0 (.pipewrite [1, 2]) :: List.replicate 6 (.go 0 .go) ++
      .go 1 (.piperead 5) :: List.replicate 7 (.go 1 .go))
    (fun m ↦ m.data.delivered = [[1, 2]]) initial_fresh (by decide +kernel)
  exact ⟨m, hm, of_decide_eq_true hread, (stored_eq_delivered_append hm).2.1⟩

end Pipe

end OperatingSystems
