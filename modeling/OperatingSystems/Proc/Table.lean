import Mathlib.Data.List.FinRange
import OperatingSystems.Lib.Transition
import OperatingSystems.Proc.Basic

/-!
# The process table and its critical sections

`proc.c`: what `allocproc`, `fork`, `exit`, `wait`, `scheduler`, `yield`, `sleep`, `wakeup` and
`kill` do to the process table on any number of CPUs. Each section of the code under `ptable.lock`
is one step; what `fork` does to its new slot outside the lock is part of the step that ends it,
since nobody else uses a slot that is `EMBRYO`.

A process that `wait` put to sleep goes on with the lock held when the scheduler switches to it, so
its next look at the table belongs to the step of the scheduler.

A slot also carries the number of its allocation, and the table the events of the run. The kernel
has neither. The number tells apart the processes that have one slot after the other, which their
pids do not once `nextpid` wraps; the events say what the calls have returned so far.
-/

namespace OperatingSystems

/-- What a process sleeps on: a process, in `wait`, or something else in memory. -/
inductive ProcChan
  | proc (j : Fin nproc)
  | addr (a : ℕ)
  deriving DecidableEq, Repr

inductive ProcPc
  /-- In user space, or in the kernel but neither in `fork` nor in `wait`. -/
  | user
  /-- In `fork`, after `allocproc` has found a slot. -/
  | forking (child : Fin nproc)
  | waiting
  deriving DecidableEq, Repr

structure ProcSlot where
  state : ProcState
  pid : BitVec 32
  parent : Option (Fin nproc)
  killed : Bool
  chan : Option ProcChan
  pc : ProcPc
  gen : ℕ
  deriving DecidableEq, Repr

/-- What happens to processes, which are named by the numbers of their allocations. -/
inductive ProcEvent
  /-- `allocproc` gives process `g` its pid. -/
  | alloc (g : ℕ) (pid : BitVec 32)
  /-- `fork` returns the pid of `child` to its creator. -/
  | fork (creator child : ℕ) (pid : BitVec 32)
  | exit (g : ℕ)
  | kill (pid : BitVec 32)
  /-- `wait` returns the pid of `child` to `caller`. -/
  | wait (caller child : ℕ) (pid : BitVec 32)
  | waitNone (caller : ℕ)
  deriving DecidableEq, Repr

structure ProcTable (κ : Type) where
  slots : Fin nproc → ProcSlot
  nextpid : BitVec 32
  /-- `c->proc` -/
  cpu : κ → Option (Fin nproc)
  /-- How many slots have been allocated so far. -/
  allocs : ℕ
  /-- What happened so far, the last event first. -/
  log : List ProcEvent

inductive ProcAct
  /-- The scheduler switches to process `j`. -/
  | sched (j : Fin nproc)
  | yield
  /-- `fork`, up to the end of the critical section of `allocproc`. -/
  | fork
  /-- The rest of `fork`, in which `kalloc` and `copyuvm` may fail. -/
  | forkDone (ok : Bool)
  | exit
  | wait
  | kill (pid : BitVec 32)
  /-- The process misbehaves, and `trap` kills it. -/
  | fault
  /-- `sleep` on something that is not a process. -/
  | sleep (a : ℕ)
  /-- `wakeup` of those who sleep there, by a process or an interrupt. -/
  | wakeup (a : ℕ)
  deriving DecidableEq, Repr

namespace ProcTable

variable {κ : Type} [DecidableEq κ] (s : ProcTable κ)

/-- The table after `f` was applied to slot `j`. -/
def setSlot (j : Fin nproc) (f : ProcSlot → ProcSlot) : ProcTable κ :=
  { s with slots := Function.update s.slots j (f (s.slots j)) }

def setCpu (c : κ) (p : Option (Fin nproc)) : ProcTable κ :=
  { s with cpu := Function.update s.cpu c p }

def note (e : ProcEvent) : ProcTable κ := { s with log := e :: s.log }

def first (p : ProcSlot → Bool) : Option (Fin nproc) :=
  (List.finRange nproc).find? fun i ↦ p (s.slots i)

def allocproc : Option (Fin nproc × ProcTable κ) :=
  match s.first fun p ↦ p.state = .unused with
  | none => none
  | some i => some (i,
      ({ s with nextpid := s.nextpid + 1, allocs := s.allocs + 1 }.setSlot i fun p ↦
        { p with state := .embryo, pid := s.nextpid, pc := .user, gen := s.allocs }).note
          (.alloc s.allocs s.nextpid))

def wakeup1 (ch : ProcChan) : ProcTable κ :=
  { s with slots := fun i ↦
      if (s.slots i).state = .sleeping ∧ (s.slots i).chan = some ch then
        { s.slots i with state := .runnable }
      else s.slots i }

/-- `fork` from its start, in process `j`. -/
def fork (j : Fin nproc) : ProcTable κ :=
  match s.allocproc with
  | none => s
  | some (i, s) => s.setSlot j fun p ↦ { p with pc := .forking i }

/-- `fork` to its end: the child can run, or its slot is given back. -/
def forkDone (j i : Fin nproc) (ok : Bool) : ProcTable κ :=
  if ok then
    ((s.setSlot j fun p ↦ { p with pc := .user }).setSlot i fun p ↦
      { p with state := .runnable, parent := some j }).note
        (.fork (s.slots j).gen (s.slots i).gen (s.slots i).pid)
  else
    (s.setSlot j fun p ↦ { p with pc := .user }).setSlot i fun p ↦ { p with state := .unused }

/-- The children of `j` become children of `initproc`. -/
def reparent (j : Fin nproc) : ProcTable κ :=
  { s with slots := fun i ↦
      if (s.slots i).parent = some j then { s.slots i with parent := some initproc }
        else s.slots i }

/-- The first child of `j` in the table that has exited. -/
def zombieChild (j : Fin nproc) : Option (Fin nproc) :=
  s.first fun p ↦ p.parent = some j && p.state = .zombie

/-- `wakeup1(curproc->parent)` -/
def wakeParent (j : Fin nproc) : ProcTable κ :=
  match (s.slots j).parent with
  | none => s
  | some p => s.wakeup1 (.proc p)

/-- Abandoned children pass to `initproc`, which is woken up if one of them has exited. -/
def abandon (j : Fin nproc) : ProcTable κ :=
  if (s.zombieChild j).isSome then (s.reparent j).wakeup1 (.proc initproc) else s.reparent j

def exit (c : κ) (j : Fin nproc) : ProcTable κ :=
  ((((s.note (.exit (s.slots j).gen)).wakeParent j).abandon j).setSlot j fun p ↦
    { p with state := .zombie }).setCpu c none

/-- The critical section of `wait`: a child that has exited is reaped, or the caller has none or was
killed and returns, or it sleeps. -/
def waitScan (c : κ) (j : Fin nproc) : ProcTable κ :=
  match s.zombieChild j with
  | some i =>
    ((s.setSlot j fun p ↦ { p with pc := .user }).setSlot i fun p ↦
      { p with state := .unused, pid := 0, parent := none, killed := false }).note
        (.wait (s.slots j).gen (s.slots i).gen (s.slots i).pid)
  | none =>
    if (s.first fun p ↦ p.parent = some j).isNone || (s.slots j).killed then
      (s.setSlot j fun p ↦ { p with pc := .user }).note (.waitNone (s.slots j).gen)
    else
      (s.setSlot j fun p ↦
        { p with state := .sleeping, chan := some (.proc j), pc := .waiting }).setCpu c none

/-- `kill`: the first slot with the pid, whatever its state. -/
def kill (pid : BitVec 32) : ProcTable κ :=
  match s.first fun p ↦ p.pid = pid with
  | none => s.note (.kill pid)
  | some i =>
    (s.setSlot i fun p ↦
      { p with
        killed := true
        state := if p.state = .sleeping then .runnable else p.state }).note (.kill pid)

def killRet (pid : BitVec 32) : ℤ := if (s.first fun p ↦ p.pid = pid).isSome then 0 else -1

/-- The scheduler switches to process `j`, which goes on in the critical section. -/
def sched (c : κ) (j : Fin nproc) : ProcTable κ :=
  let waiting := (s.slots j).pc = .waiting
  let s := (s.setSlot j fun p ↦ { p with state := .running, chan := none }).setCpu c (some j)
  if waiting then s.waitScan c j else s

/-- A critical section entered by process `j`, which runs on CPU `c`. A process that was killed may
still be on its way into a call. -/
def act (c : κ) (j : Fin nproc) : ProcAct → Option (ProcTable κ)
  | .sched _ => none
  | .yield => some ((s.setSlot j fun p ↦ { p with state := .runnable }).setCpu c none)
  | .fork => if (s.slots j).pc = .user then some (s.fork j) else none
  | .forkDone ok =>
    match (s.slots j).pc with
    | .forking i => some (s.forkDone j i ok)
    | _ => none
  -- `panic("init exiting")` otherwise
  | .exit => if (s.slots j).pc = .user ∧ j ≠ initproc then some (s.exit c j) else none
  | .wait => if (s.slots j).pc = .user then some (s.waitScan c j) else none
  | .kill pid => if (s.slots j).pc = .user then some (s.kill pid) else none
  | .fault =>
    if (s.slots j).pc = .user then some (s.setSlot j fun p ↦ { p with killed := true }) else none
  | .sleep a =>
    if (s.slots j).pc = .user then
      some ((s.setSlot j fun p ↦
        { p with state := .sleeping, chan := some (.addr a) }).setCpu c none)
    else none
  | .wakeup a => some (s.wakeup1 (.addr a))

/-- A critical section on CPU `a.1`, by the process that runs there or by the scheduler. -/
def step (a : κ × ProcAct) : Option (ProcTable κ) :=
  match s.cpu a.1 with
  | some j => s.act a.1 j a.2
  | none =>
    match a.2 with
    | .sched j => if (s.slots j).state = .runnable then some (s.sched a.1 j) else none
    | .wakeup a => some (s.wakeup1 (.addr a))
    | _ => none

def boot : ProcTable κ where
  slots i :=
    if i = initproc then ⟨.runnable, 1, none, false, none, .user, 0⟩
    else ⟨.unused, 0, none, false, none, .user, 0⟩
  nextpid := 2
  cpu _ := none
  allocs := 1
  log := []

end ProcTable

def procTable (κ : Type) [DecidableEq κ] : Machine (ProcTable κ) (κ × ProcAct) where
  init s := s = ProcTable.boot
  step := ProcTable.step

end OperatingSystems
