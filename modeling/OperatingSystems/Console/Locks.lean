import OperatingSystems.Console.Input
import OperatingSystems.Lib.Transition
import OperatingSystems.Proc.Basic

/-!
# `cps` and the console on several CPUs

What the CPUs do between `acquire` and `release` of the two locks `ptable.lock` and `cons.lock`: the
scheduler, `cps`, `consoleread` with its `sleep`, the interrupt handler `consoleintr` with its
`wakeup`, `procdump`, and any other function of the kernel that takes one of the two locks alone. A
step ends where a lock is taken or released, or where a function comes around in its loop.

A CPU in `acquire` has its interrupts off and spins: it has no step as long as the lock is taken.
Interrupts come at the places of `Entry`, where a process holds no lock.
-/

namespace OperatingSystems

open Function

inductive Lock
  | ptable
  | cons
  deriving DecidableEq, Repr

def Lock.other : Lock → Lock
  | ptable => cons
  | cons => ptable

theorem Lock.eq_other {l l' : Lock} (h : l' ≠ l) : l' = l.other := by
  cases l <;> cases l' <;> first | rfl | exact absurd rfl h

/-- A process in the kernel or outside, holding no lock: its next step into the locks below. -/
inductive Entry
  | user
  /-- `cps`, after its `sti`. -/
  | cps
  /-- `consoleread` before `acquire(&cons.lock)`, with `n` characters of `target` still to read. -/
  | read (n target : ℕ)
  /-- A function that takes `ptable.lock` only. -/
  | table
  /-- A function that takes `cons.lock` only, such as `cprintf` or `consolewrite`. -/
  | print
  deriving DecidableEq, Repr

inductive Request
  | cps
  | read (n : ℕ)
  | table
  | print
  deriving DecidableEq, Repr

def Request.entry : Request → Entry
  | cps => .cps
  | read n => .read n n
  | table => .table
  | print => .print

/-- Where a process goes on when the scheduler switches to it; it holds `ptable.lock` then. -/
inductive Resume
  /-- `forkret` -/
  | forked
  /-- In `yield`, called by the timer interrupt. -/
  | yielded (e : Entry)
  /-- In `sleep`, called by `consoleread`. -/
  | reading (n target : ℕ)
  deriving DecidableEq, Repr

inductive Chan
  /-- `&input.r` -/
  | input
  | other
  deriving DecidableEq, Repr

structure Slot where
  state : ProcState
  killed : Bool
  chan : Option Chan
  context : Resume
  deriving DecidableEq, Repr

/-- What an interrupt came upon: a process, or the scheduler. -/
abbrev Interrupted := Option (Fin nproc × Entry)

inductive Cpu
  /-- `scheduler`, after its `sti`. -/
  | idle
  | schedAcquire
  /-- The loop of `scheduler` at slot `i`. -/
  | schedScan (i : ℕ)
  /-- Process `j` just switched to. -/
  | resume (j : Fin nproc) (r : Resume)
  | proc (j : Fin nproc) (e : Entry)
  | yieldAcquire (j : Fin nproc) (e : Entry)
  | tableAcquire (j : Fin nproc)
  | tableHeld (j : Fin nproc)
  | printAcquire (j : Fin nproc)
  | printHeld (j : Fin nproc)
  | cpsAcquire (j : Fin nproc)
  /-- The loop of `cps` at line `k`: the headings, then one line for each slot. -/
  | cpsScan (j : Fin nproc) (k : ℕ)
  /-- `cprintf` of line `k`, in `acquire(&cons.lock)`. -/
  | cpsLineAcquire (j : Fin nproc) (k : ℕ)
  | cpsLine (j : Fin nproc) (k : ℕ)
  | readAcquire (j : Fin nproc) (n target : ℕ)
  /-- The loops of `consoleread`. -/
  | readLoop (j : Fin nproc) (n target : ℕ)
  /-- `sleep` in `acquire(&ptable.lock)`. -/
  | sleepAcquire (j : Fin nproc) (n target : ℕ)
  | sleepHeld (j : Fin nproc) (n target : ℕ)
  | intrAcquire (b : Interrupted)
  /-- The loop of `consoleintr`. -/
  | intrLoop (doprocdump : Bool) (b : Interrupted)
  /-- `wakeup` in `acquire(&ptable.lock)`. -/
  | wakeupAcquire (doprocdump : Bool) (b : Interrupted)
  | wakeupHeld (doprocdump : Bool) (b : Interrupted)
  /-- The loop of `procdump` at slot `i`. -/
  | dump (i : ℕ) (b : Interrupted)
  /-- A `cprintf` of `procdump`. -/
  | dumpAcquire (i : ℕ) (b : Interrupted)
  | dumpHeld (i : ℕ) (b : Interrupted)
  deriving DecidableEq, Repr

namespace Cpu

def waits : Cpu → Option Lock
  | schedAcquire | yieldAcquire .. | tableAcquire .. | cpsAcquire .. | sleepAcquire ..
  | wakeupAcquire .. => some .ptable
  | printAcquire .. | cpsLineAcquire .. | readAcquire .. | intrAcquire .. | dumpAcquire .. =>
    some .cons
  | _ => none

def holds : Cpu → Lock → Bool
  | schedScan .., .ptable | resume .., .ptable | tableHeld .., .ptable | cpsScan .., .ptable
  | cpsLineAcquire .., .ptable | cpsLine .., .ptable | sleepHeld .., .ptable
  | wakeupHeld .., .ptable => true
  | printHeld .., .cons | cpsLine .., .cons | readLoop .., .cons | sleepAcquire .., .cons
  | sleepHeld .., .cons | intrLoop .., .cons | wakeupAcquire .., .cons | wakeupHeld .., .cons
  | dumpHeld .., .cons => true
  | _, _ => false

def iret : Interrupted → Cpu
  | none => idle
  | some (j, e) => proc j e

end Cpu

structure Console (κ : Type) where
  cpu : κ → Cpu
  /-- The CPU that holds a lock. -/
  lock : Lock → Option κ
  slots : Fin nproc → Slot
  input : Input

inductive ConsoleAct
  | go
  /-- The process makes a system call. -/
  | call (r : Request)
  | timer
  /-- An interrupt of the keyboard or of the serial line. -/
  | keyboard
  /-- What `getc` returns; nothing means a negative value. -/
  | getc (c : Option (BitVec 8))
  /-- What a function that holds `ptable.lock` makes of the table, and whether it ends in
  `sched`. -/
  | change (slots : Fin nproc → Slot) (sched : Bool)
  /-- Whether `procdump` prints more about the same process. -/
  | printed (more : Bool)

namespace Console

variable {κ : Type} [DecidableEq κ] (s : Console κ) (c : κ)

def goto (pc : Cpu) : Console κ := { s with cpu := update s.cpu c pc }

/-- `acquire`: nothing happens while the lock is taken. -/
def acquire (l : Lock) (pc : Cpu) : Option (Console κ) :=
  match s.lock l with
  | some _ => none
  | none => some { s.goto c pc with lock := update s.lock l (some c) }

def release (l : Lock) (pc : Cpu) : Console κ :=
  { s.goto c pc with lock := update s.lock l none }

/-- The table after `f` was applied to slot `j`. -/
def setSlot (j : Fin nproc) (f : Slot → Slot) : Console κ :=
  { s with slots := update s.slots j (f (s.slots j)) }

/-- `wakeup1(&input.r)` -/
def wakeup1 : Console κ :=
  { s with slots := fun j ↦
      if (s.slots j).state = .sleeping ∧ (s.slots j).chan = some .input then
        { s.slots j with state := .runnable }
      else s.slots j }

/-- The `i`-th slot, if there is one. -/
def slot? (i : ℕ) : Option Slot := if h : i < nproc then some (s.slots ⟨i, h⟩) else none

/-- Whether `cps` prints line `k`: the headings always, a slot in three of its states. -/
def prints (k : ℕ) : Bool :=
  match k with
  | 0 => true
  | i + 1 =>
    match s.slot? i with
    | none => false
    | some p => p.state = .sleeping || p.state = .running || p.state = .runnable

def go : Option (Console κ) :=
  match s.cpu c with
  | .idle => some (s.goto c .schedAcquire)
  | .schedAcquire => s.acquire c .ptable (.schedScan 0)
  | .schedScan i =>
    if h : i < nproc then
      if (s.slots ⟨i, h⟩).state = .runnable then
        some ((s.setSlot ⟨i, h⟩ fun p ↦ { p with state := .running }).goto c
          (.resume ⟨i, h⟩ (s.slots ⟨i, h⟩).context))
      else some (s.goto c (.schedScan (i + 1)))
    else some (s.release c .ptable .idle)
  | .resume j .forked => some (s.release c .ptable (.proc j .user))
  | .resume j (.yielded e) => some (s.release c .ptable (.proc j e))
  | .resume j (.reading n target) =>
    some ((s.setSlot j fun p ↦ { p with chan := none }).release c .ptable
      (.proc j (.read n target)))
  | .proc _ .user => none
  | .proc j .cps => some (s.goto c (.cpsAcquire j))
  | .proc j (.read n target) => some (s.goto c (.readAcquire j n target))
  | .proc j .table => some (s.goto c (.tableAcquire j))
  | .proc j .print => some (s.goto c (.printAcquire j))
  | .yieldAcquire j e =>
    (s.acquire c .ptable (.schedScan (j + 1))).map fun s ↦
      s.setSlot j fun p ↦ { p with state := .runnable, context := .yielded e }
  | .tableAcquire j => s.acquire c .ptable (.tableHeld j)
  | .tableHeld _ => none
  | .printAcquire j => s.acquire c .cons (.printHeld j)
  | .printHeld j => some (s.release c .cons (.proc j .user))
  | .cpsAcquire j => s.acquire c .ptable (.cpsScan j 0)
  | .cpsScan j k =>
    if k ≤ nproc then
      if s.prints k then some (s.goto c (.cpsLineAcquire j k))
      else some (s.goto c (.cpsScan j (k + 1)))
    else some (s.release c .ptable (.proc j .user))
  | .cpsLineAcquire j k => s.acquire c .cons (.cpsLine j k)
  | .cpsLine j k => some (s.release c .cons (.cpsScan j (k + 1)))
  | .readAcquire j n target => s.acquire c .cons (.readLoop j n target)
  | .readLoop j n target =>
    if n = 0 then some (s.release c .cons (.proc j .user))
    else if s.input.r = s.input.w then
      if (s.slots j).killed then some (s.release c .cons (.proc j .user))
      else some (s.goto c (.sleepAcquire j n target))
    else
      match s.input.get n target with
      | (input, some n) => some ({ s with input := input }.goto c (.readLoop j n target))
      | (input, none) => some ({ s with input := input }.release c .cons (.proc j .user))
  | .sleepAcquire j n target => s.acquire c .ptable (.sleepHeld j n target)
  | .sleepHeld j n target =>
    some ((s.setSlot j fun p ↦
      { p with state := .sleeping, chan := some .input, context := .reading n target }).release c
        .cons (.schedScan (j + 1)))
  | .intrAcquire b => s.acquire c .cons (.intrLoop false b)
  | .intrLoop _ _ => none
  | .wakeupAcquire d b => s.acquire c .ptable (.wakeupHeld d b)
  | .wakeupHeld d b => some (s.wakeup1.release c .ptable (.intrLoop d b))
  | .dump i b =>
    match s.slot? i with
    | none => some (s.goto c (.iret b))
    | some p =>
      if p.state = .unused then some (s.goto c (.dump (i + 1) b))
      else some (s.goto c (.dumpAcquire i b))
  | .dumpAcquire i b => s.acquire c .cons (.dumpHeld i b)
  | .dumpHeld _ _ => none

def step (a : κ × ConsoleAct) : Option (Console κ) :=
  let c := a.1
  match a.2 with
  | .go => s.go c
  | .call r =>
    match s.cpu c with
    | .proc j .user => some (s.goto c (.proc j r.entry))
    | _ => none
  | .timer =>
    match s.cpu c with
    | .proc j e => some (s.goto c (.yieldAcquire j e))
    | _ => none
  | .keyboard =>
    match s.cpu c with
    | .idle => some (s.goto c (.intrAcquire none))
    | .proc j e => some (s.goto c (.intrAcquire (some (j, e))))
    | _ => none
  | .getc none =>
    match s.cpu c with
    | .intrLoop doprocdump b =>
      some (s.release c .cons (if doprocdump then .dump 0 b else .iret b))
    | _ => none
  | .getc (some ch) =>
    match s.cpu c with
    | .intrLoop doprocdump b =>
      let (input, wakes) := s.input.put ch
      let doprocdump := doprocdump || Input.dumps ch
      some ({ s with input := input }.goto c
        (if wakes then .wakeupAcquire doprocdump b else .intrLoop doprocdump b))
    | _ => none
  | .change slots sched =>
    match s.cpu c with
    | .tableHeld j =>
      let s := { s with slots := slots }
      some (if sched then s.goto c (.schedScan (j + 1)) else s.release c .ptable (.proc j .user))
    | _ => none
  | .printed more =>
    match s.cpu c with
    | .dumpHeld i b =>
      some (s.release c .cons (if more then .dumpAcquire i b else .dump (i + 1) b))
    | _ => none

structure Initial (s : Console κ) : Prop where
  cpu : ∀ c, s.cpu c = .idle
  lock : ∀ l, s.lock l = none

end Console

/-- The console and the process table on CPUs `κ`, with any contents. -/
def console (κ : Type) [DecidableEq κ] : Machine (Console κ) (κ × ConsoleAct) where
  init := Console.Initial
  step := Console.step

end OperatingSystems
