import OperatingSystems.Buf.Basic
import OperatingSystems.Lib.Monitor
import OperatingSystems.Lib.Threaded

/-!
# The disk drivers

`idestart`, `ideintr` and `iderw` of `ide.c` as the code of a monitor: `idelock` is its lock, and
processes sleep on the buffers that they wait for. The threads are the processes, the interrupt
handler, and the drive, which carries out the command it was given at some time of its own and then
interrupts. The drive reports no error, and it interrupts only when a command is complete.

A process calls `iderw` for a buffer that it has locked: `owner` says which process is in a call for
a buffer, and there is at most one. What the buffer contains at the time of the call is arbitrary,
as long as it is of device 1, its block is on the disk, and there is something to do.

`memide.c` does the same without queue and interrupts on an image of the disk in memory; `memIderw`
is its `iderw`.

The fields from `start` on are not in the source. They keep the contents of the disk at boot, the
members of the queue, and the requests that arrived and that were completed, with what was in the
buffer then.
-/

namespace OperatingSystems

open Function

/-! ## The memory disk -/

/-- `iderw` of `memide.c`, on a disk of `disksize` blocks; no result means a panic. -/
def memIderw (disksize : ℕ) (memdisk : Disk) (b : Buf) : Option (Disk × Buf) :=
  if b.valid = true ∧ b.dirty = false then none
  else if b.dev ≠ 1 then none
  else if disksize ≤ b.blockno.toNat then none
  else if b.dirty then
    some (update memdisk b.blockno b.data, { b with dirty := false, valid := true })
  else some (memdisk, { b with data := memdisk b.blockno, valid := true })

def memRun (memdisk : Disk) : List Buf → Option (Disk × List Buf)
  | [] => some (memdisk, [])
  | b :: bs =>
    (memIderw fssize memdisk b).bind fun r ↦
      (memRun r.1 bs).map fun t ↦ (t.1, r.2 :: t.2)

theorem memRun_concat {memdisk d d' : Disk} {bs rs : List Buf} {b r : Buf}
    (h : memRun memdisk bs = some (d, rs)) (hb : memIderw fssize d b = some (d', r)) :
    memRun memdisk (bs ++ [b]) = some (d', rs ++ [r]) := by
  induction bs generalizing memdisk rs with
  | nil =>
    cases h
    rw [List.nil_append, memRun, hb]
    rfl
  | cons c bs ih =>
    rw [memRun, Option.bind_eq_some_iff] at h
    obtain ⟨r₁, hc, h⟩ := h
    obtain ⟨t, ht, heq⟩ := Option.map_eq_some_iff.mp h
    cases heq
    rw [List.cons_append, memRun, hc]
    exact congrArg (Option.map _) (ih ht)

theorem length_of_memRun {memdisk d : Disk} {bs rs : List Buf}
    (h : memRun memdisk bs = some (d, rs)) : bs.length = rs.length := by
  induction bs generalizing memdisk rs with
  | nil =>
    cases h
    rfl
  | cons c bs ih =>
    rw [memRun, Option.bind_eq_some_iff] at h
    obtain ⟨r₁, -, h⟩ := h
    obtain ⟨t, ht, heq⟩ := Option.map_eq_some_iff.mp h
    cases heq
    exact congrArg (· + 1) (ih ht)

/-! ## The drive -/

structure IdeCommand where
  sector : BlockNo
  /-- The data to be written, if it is a write. -/
  write : Option Block

/-- The number of the sector, as it is put together from the four registers that it is written to,
of which the last one has room for four bits. -/
def lba (sector : BlockNo) : BlockNo := sector &&& 0x0fffffff#32

theorem lba_eq {b : BlockNo} (h : b.toNat < fssize) : lba b = b := by
  apply BitVec.eq_of_toNat_eq
  have hmask : (0x0fffffff#32).toNat = 2 ^ 28 - 1 := rfl
  rw [lba, BitVec.toNat_and, hmask, Nat.and_two_pow_sub_one_eq_mod]
  exact Nat.mod_eq_of_lt (h.trans (by decide))

structure Ide (π β : Type) where
  buf : β → Buf
  qnext : β → Option β
  idequeue : Option β
  owner : β → Option π
  /-- The command that the drive was given and that was not taken back yet. -/
  command : Option IdeCommand
  done : Bool
  fetched : Block
  disk : Disk
  start : Disk
  queue : List β
  arrived : List (β × Buf)
  completed : List (β × Buf)
  /-- What was in the buffers when they were completed. -/
  results : List Buf

inductive IdeThread (π : Type)
  | proc (p : π)
  | intr
  | drive
  deriving DecidableEq, Repr

/-- Where a thread is. In a call, `b` is the buffer and `c` what was in it at the start. -/
inductive IdePc (β : Type)
  | idle
  /-- `iderw`, in `acquire(&idelock)`. -/
  | acquire (b : β) (c : Buf)
  /-- Before the loop that appends to the queue. -/
  | append (b : β) (c : Buf)
  /-- Before the test whether to start the disk. -/
  | start (b : β) (c : Buf)
  | loop (b : β) (c : Buf)
  /-- Before `sleep(b, &idelock)`. -/
  | sleep (b : β) (c : Buf)
  /-- In `sleep`, before it takes the lock again. -/
  | slept (b : β) (c : Buf)
  /-- The call has returned, with `r` in the buffer. -/
  | returned (b : β) (c r : Buf)
  /-- `ideintr`, in `acquire(&idelock)`. -/
  | intrAcquire
  | intr
  /-- Before `wakeup(b)`. -/
  | intrWake (b : β)
  /-- Before the test whether to start the next command. -/
  | intrStart
  | intrDone

inductive IdeInput (β : Type)
  | go
  | iderw (b : β) (c : Buf)
  | interrupt
  | complete

def Buf.Request (c : Buf) : Prop :=
  c.dev = 1 ∧ ¬(c.valid = true ∧ c.dirty = false) ∧ c.blockno.toNat < fssize

instance (c : Buf) : Decidable c.Request := inferInstanceAs (Decidable (_ ∧ _))

/-- `(b->flags & (B_VALID|B_DIRTY)) == B_VALID` -/
def Buf.Synced (c : Buf) : Prop := c.valid = true ∧ c.dirty = false

instance (c : Buf) : Decidable c.Synced := inferInstanceAs (Decidable (_ ∧ _))

namespace Ide

variable {π β : Type}

def commandFor (c : Buf) : IdeCommand where
  -- `BSIZE / SECTOR_SIZE` is 1
  sector := lba (c.blockno * 1)
  write := if c.dirty then some c.data else none

/-- `idestart`; no result means a panic. -/
def idestart (s : Ide π β) (b : Option β) : Option (Ide π β) :=
  match b with
  | none => none
  | some b =>
    if fssize ≤ (s.buf b).blockno.toNat then none
    else some { s with command := some (commandFor (s.buf b)), done := false }

def transfer (s : Ide π β) (c : IdeCommand) : Ide π β :=
  { s with
    disk := match c.write with
      | some data => update s.disk c.sector data
      | none => s.disk
    fetched := s.disk c.sector
    done := true }

/-- The buffer after `ideintr`. -/
def synced (s : Ide π β) (c : Buf) : Buf :=
  { c with data := if c.dirty then c.data else s.fetched, valid := true, dirty := false }

section Updates

variable [DecidableEq β] {s : Ide π β} {p : π} {b b' : β} {c : Buf}

/-- `ideintr` up to its `wakeup`, for the first buffer in the queue. -/
def pop (s : Ide π β) (b : β) : Ide π β :=
  { s with
    idequeue := s.qnext b
    buf := update s.buf b (s.synced (s.buf b))
    command := none
    done := false
    queue := s.queue.tail
    completed := s.completed ++ [(b, s.buf b)]
    results := s.results ++ [s.synced (s.buf b)] }

theorem pop_buf_self (s : Ide π β) (b : β) : (s.pop b).buf b = s.synced (s.buf b) :=
  update_self ..

theorem pop_buf_of_ne (h : b' ≠ b) : (s.pop b).buf b' = s.buf b' := update_of_ne h ..

def enter (s : Ide π β) (p : π) (b : β) (c : Buf) : Ide π β :=
  { s with owner := update s.owner b (some p), buf := update s.buf b c }

theorem enter_owner_self : (s.enter p b c).owner b = some p := update_self ..

theorem enter_owner_of_ne (h : b' ≠ b) : (s.enter p b c).owner b' = s.owner b' :=
  update_of_ne h ..

theorem enter_buf_self : (s.enter p b c).buf b = c := update_self ..

theorem enter_buf_of_ne (h : b' ≠ b) : (s.enter p b c).buf b' = s.buf b' :=
  update_of_ne h ..

def leave (s : Ide π β) (b : β) : Ide π β := { s with owner := update s.owner b none }

theorem leave_owner_of_ne (h : b' ≠ b) : (s.leave b).owner b' = s.owner b' :=
  update_of_ne h ..

/-- The buffer is linked behind the last one, `pp`, or becomes the first. -/
def link (s : Ide π β) (b : β) (pp : Option β) : Ide π β :=
  { s with
    idequeue := match pp with
      | none => some b
      | some _ => s.idequeue
    qnext := match pp with
      | none => update s.qnext b none
      | some last => update (update s.qnext b none) last (some b)
    queue := s.queue ++ [b]
    arrived := s.arrived ++ [(b, s.buf b)] }

end Updates

variable [DecidableEq β] [Fintype β]

/-- `b->qnext = 0; for(pp=&idequeue; *pp; pp=&(*pp)->qnext) ; *pp = b;` There are no more rounds
than buffers unless the links go around in a circle, and then there is no end. -/
def append (s : Ide π β) (b : β) : Option (Ide π β) :=
  (lastLink (update s.qnext b none) (Fintype.card β + 1) s.idequeue none).map (s.link b)

def code : MonitorCode (IdeThread π) (IdeInput β) (IdePc β) β (Ide π β) := fun t x pc _ s ↦
  match t, x, pc with
  | .proc p, .iderw b c, .idle | .proc p, .iderw b c, .returned _ _ _ =>
    match s.owner b with
    | some _ => none
    | none => if c.Request then some (.free (s.enter p b c) (.acquire b c)) else none
  | .proc _, .go, .acquire b c => some (.acquire (.append b c))
  | .proc _, .go, .append b c => (s.append b).map fun s ↦ .go s (.start b c)
  | .proc _, .go, .start b c =>
    if s.idequeue = some b then (s.idestart (some b)).map fun s ↦ .go s (.loop b c)
    else some (.go s (.loop b c))
  | .proc _, .go, .loop b c =>
    if (s.buf b).Synced then some (.release (s.leave b) (.returned b c (s.buf b)))
    else some (.go s (.sleep b c))
  | .proc _, .go, .sleep b c => some (.sleep b (.slept b c))
  | .proc _, .go, .slept b c => some (.acquire (.loop b c))
  | .intr, .interrupt, .idle => if s.done then some (.call .intrAcquire) else none
  | .intr, .go, .intrAcquire => some (.acquire .intr)
  | .intr, .go, .intr =>
    match s.idequeue with
    | none => some (.release s .idle)
    | some b => some (.go (s.pop b) (.intrWake b))
  | .intr, .go, .intrWake b => some (.wakeup b s .intrStart)
  | .intr, .go, .intrStart =>
    match s.idequeue with
    | none => some (.go s .intrDone)
    | some b => (s.idestart (some b)).map fun s ↦ .go s .intrDone
  | .intr, .go, .intrDone => some (.release s .idle)
  | .drive, .complete, .idle =>
    match s.command with
    | none => none
    | some c => if s.done then none else some (.free (s.transfer c) .idle)
  | _, _, _ => none

omit [DecidableEq β] [Fintype β] in
theorem idestart_eq_some {s s' : Ide π β} {b : β} (h : s.idestart (some b) = some s') :
    s' = { s with command := some (commandFor (s.buf b)), done := false } := by
  rw [idestart] at h
  obtain ⟨-, h⟩ := Option.ite_none_left_eq_some.mp h
  exact (Option.some.inj h).symm

/-- The queue is empty, the drive has nothing to do, and nobody has called anything yet. -/
structure Initial (m : Monitor (IdeThread π) (IdePc β) β (Ide π β)) : Prop where
  idequeue : m.data.idequeue = none
  owner : ∀ b, m.data.owner b = none
  command : m.data.command = none
  done : m.data.done = false
  start : m.data.start = m.data.disk
  queue : m.data.queue = []
  arrived : m.data.arrived = []
  completed : m.data.completed = []
  results : m.data.results = []
  lock : m.lock = none
  pc : ∀ t, (m.thread t).pc = .idle
  chan : ∀ t, (m.thread t).chan = none

/-- The driver after `ideinit`, with an empty disk. -/
def boot : Monitor (IdeThread π) (IdePc β) β (Ide π β) where
  data :=
    { buf := fun _ ↦ .unused
      qnext := fun _ ↦ none
      idequeue := none
      owner := fun _ ↦ none
      command := none
      done := false
      fetched := fun _ ↦ 0
      disk := fun _ _ ↦ 0
      start := fun _ _ ↦ 0
      queue := []
      arrived := []
      completed := []
      results := [] }
  lock := none
  thread := fun _ ↦ ⟨.idle, none, false⟩

omit [DecidableEq β] [Fintype β] in
theorem initial_boot : Initial (boot : Monitor (IdeThread π) (IdePc β) β (Ide π β)) :=
  ⟨rfl, fun _ ↦ rfl, rfl, rfl, rfl, rfl, rfl, rfl, rfl, rfl, fun _ ↦ rfl, fun _ ↦ rfl⟩

end Ide

/-- The disk driver with processes `π` and buffers `β`. -/
def ide (π β : Type) [DecidableEq π] [DecidableEq β] [Fintype β] :
    Machine (Monitor (IdeThread π) (IdePc β) β (Ide π β))
      (MonitorAct (IdeThread π) (IdeInput β)) where
  init := Ide.Initial
  step := Monitor.step Ide.code

end OperatingSystems
