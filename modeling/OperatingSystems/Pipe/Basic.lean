import OperatingSystems.Lib.Monitor
import OperatingSystems.Memory.Basic

/-!
# Pipes

`pipewrite`, `piperead` and `pipeclose` of `pipe.c` as the code of a monitor: `p->lock` is its lock,
and processes sleep on the addresses of the two counters. A step is a `ptable.lock` section, which
is what `wakeup`, `kill` and the first half of `sleep` are, or a round of a loop in `p->lock`; the
test of `killed` is made without `ptable.lock` and so is a step of its own.

Any process may call any of the functions at any time. Beside the fields of `struct pipe` the state
has the history of the calls: who stored which byte, what each call of `piperead` returned, and what
the calls of `pipewrite` that have returned took from their callers.
-/

namespace OperatingSystems

def pipeSize : ℕ := 512

structure Pipe (π : Type) where
  data : ℕ → Byte
  nread : BitVec 32
  nwrite : BitVec 32
  readopen : Bool
  writeopen : Bool
  /-- The bytes stored so far, and by whom. -/
  stored : List (π × Byte)
  /-- What the calls of `piperead` returned so far. -/
  delivered : List (List Byte)
  /-- What the earlier calls of `pipewrite` of each process stored. -/
  wrote : π → List Byte

inductive PipeChan
  | nread
  | nwrite
  deriving DecidableEq, Repr

inductive PipePc
  /-- Outside; what the last call returned. -/
  | idle (ret : ℤ)
  /-- `pipewrite`, in `acquire(&p->lock)`. -/
  | writeAcquire (addr : List Byte)
  | writeLoop (addr : List Byte) (i : ℕ)
  /-- The buffer is full, and the tests are done: before `wakeup(&p->nread)`. -/
  | writeFull (addr : List Byte) (i : ℕ)
  /-- Before `sleep(&p->nwrite, &p->lock)`. -/
  | writeSleep (addr : List Byte) (i : ℕ)
  /-- In `sleep`, before it takes the lock again. -/
  | writeSlept (addr : List Byte) (i : ℕ)
  /-- Before the last `wakeup(&p->nread)`. -/
  | writeWake (addr : List Byte)
  | writeDone (addr : List Byte)
  /-- `piperead`, in `acquire(&p->lock)`. -/
  | readAcquire (n : ℕ)
  | readLoop (n : ℕ)
  /-- The buffer is empty, and the tests are done: before `sleep(&p->nread, &p->lock)`. -/
  | readSleep (n : ℕ)
  /-- In `sleep`, before it takes the lock again. -/
  | readSlept (n : ℕ)
  /-- The copying loop, which has got some bytes. -/
  | readCopy (n : ℕ) (got : List Byte)
  /-- Before `wakeup(&p->nwrite)`. -/
  | readWake (n : ℕ) (got : List Byte)
  | readDone (n : ℕ) (got : List Byte)
  /-- `pipeclose`, in `acquire(&p->lock)`. -/
  | closeAcquire (writable : Bool)
  | close (writable : Bool)
  | closeDone
  deriving DecidableEq, Repr

inductive PipeInput
  | go
  | pipewrite (addr : List Byte)
  | piperead (n : ℕ)
  | pipeclose (writable : Bool)
  deriving DecidableEq, Repr

namespace Pipe

variable {π : Type}

/-- `p->nread == p->nwrite` -/
def Empty (s : Pipe π) : Prop := s.nread = s.nwrite

/-- `p->nwrite == p->nread + PIPESIZE` -/
def Full (s : Pipe π) : Prop := s.nwrite = s.nread + BitVec.ofNat 32 pipeSize

instance (s : Pipe π) : Decidable s.Empty := inferInstanceAs (Decidable (_ = _))

instance (s : Pipe π) : Decidable s.Full := inferInstanceAs (Decidable (_ = _))

/-- `p->data[p->nwrite++ % PIPESIZE] = c;` -/
def store (s : Pipe π) (p : π) (c : Byte) : Pipe π :=
  { s with
    data := Function.update s.data (s.nwrite.toNat % pipeSize) c
    nwrite := s.nwrite + 1
    stored := s.stored ++ [(p, c)] }

/-- `p->data[p->nread % PIPESIZE]` -/
def front (s : Pipe π) : Byte := s.data (s.nread.toNat % pipeSize)

/-- `p->nread++` -/
def take (s : Pipe π) : Pipe π := { s with nread := s.nread + 1 }

def clearOpen (s : Pipe π) (writable : Bool) : Pipe π :=
  if writable then { s with writeopen := false } else { s with readopen := false }

/-- A call of `pipewrite` returns, having stored `bs`. -/
def noteWrite [DecidableEq π] (s : Pipe π) (p : π) (bs : List Byte) : Pipe π :=
  { s with wrote := Function.update s.wrote p (s.wrote p ++ bs) }

/-- A call of `piperead` returns `bs`. -/
def noteRead (s : Pipe π) (bs : List Byte) : Pipe π := { s with delivered := s.delivered ++ [bs] }

/-- What `pipealloc` makes; nobody has called anything yet. -/
structure Initial (m : Monitor π PipePc PipeChan (Pipe π)) : Prop where
  nread : m.data.nread = 0
  nwrite : m.data.nwrite = 0
  readopen : m.data.readopen = true
  writeopen : m.data.writeopen = true
  lock : m.lock = none
  pc : ∀ p, (m.thread p).pc = .idle 0
  chan : ∀ p, (m.thread p).chan = none
  stored : m.data.stored = []
  delivered : m.data.delivered = []
  wrote : ∀ p, m.data.wrote p = []

def fresh : Monitor π PipePc PipeChan (Pipe π) where
  data :=
    { data := fun _ ↦ 0
      nread := 0
      nwrite := 0
      readopen := true
      writeopen := true
      stored := []
      delivered := []
      wrote := fun _ ↦ [] }
  lock := none
  thread := fun _ ↦ ⟨.idle 0, none, false⟩

theorem initial_fresh : Initial (fresh : Monitor π PipePc PipeChan (Pipe π)) :=
  ⟨rfl, rfl, rfl, rfl, rfl, fun _ ↦ rfl, fun _ ↦ rfl, rfl, rfl, fun _ ↦ rfl⟩

variable [DecidableEq π]

def writeLoop (s : Pipe π) (p : π) (killed : Bool) (addr : List Byte) (i : ℕ) :
    Instr PipePc PipeChan (Pipe π) :=
  match addr[i]? with
  | none => .go s (.writeWake addr)
  | some c =>
    if s.Full then
      if !s.readopen || killed then .release (s.noteWrite p (addr.take i)) (.idle (-1))
      else .go s (.writeFull addr i)
    else .go (s.store p c) (.writeLoop addr (i + 1))

def readLoop (s : Pipe π) (killed : Bool) (n : ℕ) : Instr PipePc PipeChan (Pipe π) :=
  if s.Empty ∧ s.writeopen then
    if killed then .release s (.idle (-1)) else .go s (.readSleep n)
  else .go s (.readCopy n [])

def readCopy (s : Pipe π) (n : ℕ) (got : List Byte) : Instr PipePc PipeChan (Pipe π) :=
  if got.length < n then
    if s.Empty then .go s (.readWake n got) else .go s.take (.readCopy n (got ++ [s.front]))
  else .go s (.readWake n got)

def code : MonitorCode π PipeInput PipePc PipeChan (Pipe π) := fun p x pc killed s ↦
  match x, pc with
  | .pipewrite addr, .idle _ => some (.call (.writeAcquire addr))
  | .piperead n, .idle _ => some (.call (.readAcquire n))
  | .pipeclose writable, .idle _ => some (.call (.closeAcquire writable))
  | .go, .writeAcquire addr => some (.acquire (.writeLoop addr 0))
  | .go, .writeLoop addr i => some (s.writeLoop p killed addr i)
  | .go, .writeFull addr i => some (.wakeup .nread s (.writeSleep addr i))
  | .go, .writeSleep addr i => some (.sleep .nwrite (.writeSlept addr i))
  | .go, .writeSlept addr i => some (.acquire (.writeLoop addr i))
  | .go, .writeWake addr => some (.wakeup .nread s (.writeDone addr))
  | .go, .writeDone addr => some (.release (s.noteWrite p addr) (.idle addr.length))
  | .go, .readAcquire n => some (.acquire (.readLoop n))
  | .go, .readLoop n => some (s.readLoop killed n)
  | .go, .readSleep n => some (.sleep .nread (.readSlept n))
  | .go, .readSlept n => some (.acquire (.readLoop n))
  | .go, .readCopy n got => some (s.readCopy n got)
  | .go, .readWake n got => some (.wakeup .nwrite s (.readDone n got))
  | .go, .readDone _ got => some (.release (s.noteRead got) (.idle got.length))
  | .go, .closeAcquire writable => some (.acquire (.close writable))
  | .go, .close writable =>
    some (.wakeup (if writable then .nread else .nwrite) (s.clearOpen writable) .closeDone)
  | .go, .closeDone => some (.release s (.idle 0))
  | _, _ => none

end Pipe

def pipe (π : Type) [DecidableEq π] :
    Machine (Monitor π PipePc PipeChan (Pipe π)) (MonitorAct π PipeInput) where
  init := Pipe.Initial
  step := Monitor.step Pipe.code

namespace PipePc

def holds : PipePc → Bool
  | writeLoop .. | writeFull .. | writeSleep .. | writeWake .. | writeDone .. | readLoop ..
  | readSleep .. | readCopy .. | readWake .. | readDone .. | close .. | closeDone => true
  | _ => false

end PipePc

namespace Pipe

variable {π : Type} [DecidableEq π] {s : Pipe π} {p : π} {x : PipeInput} {pc : PipePc} {k : Bool}
  {i : Instr PipePc PipeChan (Pipe π)}

inductive Move (p : π) (k : Bool) (s : Pipe π) :
    PipePc → Instr PipePc PipeChan (Pipe π) → Prop
  | callWrite {r : ℤ} (addr : List Byte) : Move p k s (.idle r) (.call (.writeAcquire addr))
  | callRead {r : ℤ} (n : ℕ) : Move p k s (.idle r) (.call (.readAcquire n))
  | callClose {r : ℤ} (w : Bool) : Move p k s (.idle r) (.call (.closeAcquire w))
  | write (addr : List Byte) : Move p k s (.writeAcquire addr) (.acquire (.writeLoop addr 0))
  | store {addr : List Byte} {i : ℕ} {c : Byte} (hc : addr[i]? = some c) (hfull : ¬s.Full) :
      Move p k s (.writeLoop addr i) (.go (s.store p c) (.writeLoop addr (i + 1)))
  | giveUp {addr : List Byte} {i : ℕ} (hi : i < addr.length) (hfull : s.Full)
      (hgone : s.readopen = false ∨ k = true) :
      Move p k s (.writeLoop addr i) (.release (s.noteWrite p (addr.take i)) (.idle (-1)))
  | full {addr : List Byte} {i : ℕ} (hfull : s.Full) (hopen : s.readopen = true) (hk : k = false) :
      Move p k s (.writeLoop addr i) (.go s (.writeFull addr i))
  | writeEnd {addr : List Byte} {i : ℕ} (hi : addr.length ≤ i) :
      Move p k s (.writeLoop addr i) (.go s (.writeWake addr))
  | wakeReaders (addr : List Byte) (i : ℕ) :
      Move p k s (.writeFull addr i) (.wakeup .nread s (.writeSleep addr i))
  | writeSleep (addr : List Byte) (i : ℕ) :
      Move p k s (.writeSleep addr i) (.sleep .nwrite (.writeSlept addr i))
  | writeAgain (addr : List Byte) (i : ℕ) :
      Move p k s (.writeSlept addr i) (.acquire (.writeLoop addr i))
  | writeWake (addr : List Byte) :
      Move p k s (.writeWake addr) (.wakeup .nread s (.writeDone addr))
  | writeDone (addr : List Byte) :
      Move p k s (.writeDone addr) (.release (s.noteWrite p addr) (.idle addr.length))
  | read (n : ℕ) : Move p k s (.readAcquire n) (.acquire (.readLoop n))
  | readKilled {n : ℕ} (hempty : s.Empty) (hopen : s.writeopen = true) (hk : k = true) :
      Move p k s (.readLoop n) (.release s (.idle (-1)))
  | empty {n : ℕ} (hempty : s.Empty) (hopen : s.writeopen = true) (hk : k = false) :
      Move p k s (.readLoop n) (.go s (.readSleep n))
  | readStart {n : ℕ} (hgo : s.Empty → s.writeopen = false) :
      Move p k s (.readLoop n) (.go s (.readCopy n []))
  | readSleep (n : ℕ) : Move p k s (.readSleep n) (.sleep .nread (.readSlept n))
  | readAgain (n : ℕ) : Move p k s (.readSlept n) (.acquire (.readLoop n))
  | copy {n : ℕ} {got : List Byte} (hlt : got.length < n) (hempty : ¬s.Empty) :
      Move p k s (.readCopy n got) (.go s.take (.readCopy n (got ++ [s.front])))
  | readEnd {n : ℕ} {got : List Byte} (hend : got.length < n → s.Empty) :
      Move p k s (.readCopy n got) (.go s (.readWake n got))
  | readWake (n : ℕ) (got : List Byte) :
      Move p k s (.readWake n got) (.wakeup .nwrite s (.readDone n got))
  | readDone (n : ℕ) (got : List Byte) :
      Move p k s (.readDone n got) (.release (s.noteRead got) (.idle got.length))
  | close (w : Bool) : Move p k s (.closeAcquire w) (.acquire (.close w))
  | clear (w : Bool) :
      Move p k s (.close w) (.wakeup (if w then .nread else .nwrite) (s.clearOpen w) .closeDone)
  | closeDone : Move p k s .closeDone (.release s (.idle 0))

theorem move_writeLoop (addr : List Byte) (i : ℕ) :
    Move p k s (.writeLoop addr i) (s.writeLoop p k addr i) := by
  unfold Pipe.writeLoop
  split
  · rename_i hnone
    exact .writeEnd (List.getElem?_eq_none_iff.mp hnone)
  · rename_i c hc
    obtain ⟨hi, -⟩ := List.getElem?_eq_some_iff.mp hc
    by_cases hfull : s.Full
    · rw [if_pos hfull]
      by_cases hgone : s.readopen = false ∨ k = true
      · rw [if_pos (by simpa using hgone)]
        exact .giveUp hi hfull hgone
      · rw [if_neg (by simpa using hgone)]
        rw [not_or, Bool.not_eq_false, Bool.not_eq_true] at hgone
        exact .full hfull hgone.1 hgone.2
    · rw [if_neg hfull]
      exact .store hc hfull

theorem move_readLoop (n : ℕ) : Move p k s (.readLoop n) (s.readLoop k n) := by
  unfold Pipe.readLoop
  by_cases hwait : s.Empty ∧ s.writeopen = true
  · rw [if_pos hwait]
    by_cases hk : k = true
    · rw [if_pos hk]
      exact .readKilled hwait.1 hwait.2 hk
    · rw [if_neg hk]
      exact .empty hwait.1 hwait.2 (Bool.not_eq_true _ ▸ hk)
  · rw [if_neg hwait]
    exact .readStart fun hempty ↦ Bool.not_eq_true _ ▸ fun hopen ↦ hwait ⟨hempty, hopen⟩

theorem move_readCopy (n : ℕ) (got : List Byte) :
    Move p k s (.readCopy n got) (s.readCopy n got) := by
  unfold Pipe.readCopy
  by_cases hlt : got.length < n
  · rw [if_pos hlt]
    by_cases hempty : s.Empty
    · rw [if_pos hempty]
      exact .readEnd fun _ ↦ hempty
    · rw [if_neg hempty]
      exact .copy hlt hempty
  · rw [if_neg hlt]
    exact .readEnd fun h ↦ absurd h hlt

theorem move_of_code (h : code p x pc k s = some i) : Move p k s pc i := by
  unfold code at h
  split at h
  case h_5 => exact Option.some.inj h ▸ move_writeLoop _ _
  case h_12 => exact Option.some.inj h ▸ move_readLoop _
  case h_15 => exact Option.some.inj h ▸ move_readCopy _ _
  case h_21 => exact absurd h.symm (Option.some_ne_none _)
  all_goals
    obtain rfl := Option.some.inj h
    constructor

theorem Move.fits (h : Move p k s pc i) : i.Fits (fun pc ↦ pc.holds = true) pc := by
  cases h <;> simp [Instr.Fits, PipePc.holds]

end Pipe

end OperatingSystems
