import OperatingSystems.Fs.Block
import OperatingSystems.Fs.Inode
import OperatingSystems.Lib.Result
import OperatingSystems.Lib.Ring
import OperatingSystems.Lib.Transition

/-!
# The buffer cache

The model of `bio.c`, with the disk driver below it and `log_write` above it. The list of buffers is
kept as the source has it, by `prev` and `next` links that go through the buffers and the list head.

Any number of processes interleave. A step is a section under `bcache.lock`, or what the holder of a
buffer's sleep-lock does; `bget` and `brelse` are cut between the two. A process may hold several
buffers, but is in one call at a time. `commit` consists of `bread`, changes of the data followed by
`bwrite`, and `brelse`, and of the assignment that empties the log header.

The driver finishes every request it is given; errors of the device are not modelled.

Two fields are not in the source. `touched` marks a buffer whose data its holder has changed and not
yet given to `log_write` or `bwrite`; a buffer is not released in this state. `left` is what was in
the buffer for a block when it was last released.
-/

namespace OperatingSystems

open Function

def nbuf : ℕ := maxOpBlocks * 3

instance : NeZero nbuf := ⟨by decide⟩

/-- The buffers, and `none` for the list head. -/
abbrev BufNode := Option (Fin nbuf)

/-- `struct buf` without its links and its lock. -/
structure Buf where
  /-- `B_VALID` -/
  valid : Bool
  /-- `B_DIRTY` -/
  dirty : Bool
  dev : Dev
  blockno : BlockNo
  refcnt : ℕ
  data : Block

def Buf.key (b : Buf) : Dev × BlockNo := (b.dev, b.blockno)

def Buf.unused : Buf := ⟨false, false, 0, 0, 0, fun _ ↦ 0⟩

/-- The drive that `idestart` selects, `dev & 1`. -/
def drive (dev : Dev) : Bool := dev.getLsbD 0

/-- How far a process is in `bread` and `brelse`. -/
inductive BufPc
  | idle
  /-- `bget` for block `b` of `dev` has chosen the buffer and goes to lock it -/
  | wait (i : Fin nbuf) (dev : Dev) (b : BlockNo)
  /-- `brelse` has unlocked the buffer -/
  | drop (i : Fin nbuf)
  deriving DecidableEq

/-- The buffer that a process refers to while it is in `bread` or `brelse`. -/
def BufPc.buf : BufPc → Option (Fin nbuf)
  | .idle => none
  | .wait i _ _ => some i
  | .drop i => some i

structure Bcache (π : Type) where
  links : Links BufNode
  buf : Fin nbuf → Buf
  /-- The sleep-lock of a buffer. -/
  lock : Fin nbuf → Option π
  disk : Bool → Disk
  /-- `log.lh` -/
  lh : List BlockNo
  outstanding : ℕ
  pc : π → BufPc
  touched : Fin nbuf → Bool
  left : Dev → BlockNo → Option Block

inductive BufAct (π : Type)
  | bget (p : π) (dev : Dev) (b : BlockNo)
  /-- The rest of `bread`, once the buffer's lock is free. -/
  | enter (p : π)
  /-- Change the data of a buffer in place. -/
  | modify (p : π) (i : Fin nbuf) (c : Block)
  | logWrite (p : π) (i : Fin nbuf)
  | bwrite (p : π) (i : Fin nbuf)
  | brelse (p : π) (i : Fin nbuf)
  /-- The rest of `brelse`. -/
  | drop (p : π)
  | beginOp
  | endOp
  /-- `log.lh.n = 0` in `commit`. -/
  | erase

inductive BufStop
  /-- The lock is taken, or the caller may not make the call. -/
  | blocked
  /-- `panic("bget: no buffers")` -/
  | noBuffers
  /-- `panic("iderw: nothing to do")` -/
  | nothingToDo
  /-- `panic("incorrect blockno")` -/
  | incorrectBlockno
  /-- `panic("too big a transaction")` -/
  | tooBig
  /-- `panic("log_write outside of trans")` -/
  | outsideTrans
  deriving DecidableEq

namespace Bcache

variable {π : Type} [DecidableEq π] (s : Bcache π)

/-! ## Updates of the state -/

@[simps] def setBuf (i : Fin nbuf) (b : Buf) : Bcache π :=
  { s with buf := update s.buf i b }

@[simps] def setLock (i : Fin nbuf) (o : Option π) : Bcache π :=
  { s with lock := update s.lock i o }

@[simps] def setPc (p : π) (c : BufPc) : Bcache π := { s with pc := update s.pc p c }

@[simps] def setTouched (i : Fin nbuf) (v : Bool) : Bcache π :=
  { s with touched := update s.touched i v }

/-! ## The functions of the source -/

/-- The links that `binit` builds: every buffer in turn is pushed to the front. -/
def binit : Links BufNode :=
  (List.finRange nbuf).foldl (fun L i ↦ L.pushFront none (some i)) ⟨fun _ ↦ none, fun _ ↦ none⟩

/-- The first buffer along `next` with this number. -/
def cached (dev : Dev) (b : BlockNo) : Option BufNode :=
  Links.walk s.links.next none
    (fun x ↦ x.any fun i ↦ decide ((s.buf i).dev = dev ∧ (s.buf i).blockno = b)) (nbuf + 1)
    (s.links.next none)

/-- The first buffer along `prev` that may be recycled. -/
def unusedBuf : Option BufNode :=
  Links.walk s.links.prev none
    (fun x ↦ x.any fun i ↦ decide ((s.buf i).refcnt = 0 ∧ (s.buf i).dirty = false)) (nbuf + 1)
    (s.links.prev none)

def bget (p : π) (dev : Dev) (b : BlockNo) : Except BufStop (Bcache π) :=
  match (s.cached dev b).join with
  | some i =>
    .ok ((s.setBuf i { s.buf i with refcnt := (s.buf i).refcnt + 1 }).setPc p (.wait i dev b))
  | none =>
    match s.unusedBuf.join with
    | some i =>
      .ok ((s.setBuf i ⟨false, false, dev, b, 1, (s.buf i).data⟩).setPc p (.wait i dev b))
    | none => .error .noBuffers

/-- `iderw`: sync a buffer with the disk. -/
def iderw (i : Fin nbuf) : Except BufStop (Bcache π) :=
  let b := s.buf i
  let d := s.disk (drive b.dev)
  if b.valid = true ∧ b.dirty = false then .error .nothingToDo
  else if fssize ≤ b.blockno.toNat then .error .incorrectBlockno
  else if b.dirty = true then
    .ok { s.setBuf i { b with valid := true, dirty := false } with
      disk := update s.disk (drive b.dev) (update d b.blockno b.data) }
  else .ok (s.setBuf i { b with valid := true, data := d b.blockno })

/-- The rest of `bread`, once the lock is free. -/
def enter (p : π) (i : Fin nbuf) : Except BufStop (Bcache π) :=
  let s := (s.setLock i (some p)).setPc p .idle
  if (s.buf i).valid = true then .ok s else s.iderw i

def bwrite (i : Fin nbuf) : Except BufStop (Bcache π) :=
  ((s.setBuf i { s.buf i with dirty := true }).setTouched i false).iderw i

/-- `log_write`. `size` is the size of the log on disk. -/
def logWrite (size : ℕ) (i : Fin nbuf) : Except BufStop (Bcache π) :=
  if logSize ≤ s.lh.length ∨ size - 1 ≤ s.lh.length then .error .tooBig
  else if s.outstanding < 1 then .error .outsideTrans
  else
    let b := (s.buf i).blockno
    .ok { (s.setBuf i { s.buf i with dirty := true }).setTouched i false with
      lh := if b ∈ s.lh then s.lh else s.lh ++ [b] }

/-- `brelse` up to `releasesleep`. -/
def brelse (p : π) (i : Fin nbuf) : Bcache π :=
  let b := s.buf i
  { (s.setLock i none).setPc p (.drop i) with
    left := update s.left b.dev (update (s.left b.dev) b.blockno (some b.data)) }

/-- The section of `brelse` under `bcache.lock`. -/
def drop (p : π) (i : Fin nbuf) : Bcache π :=
  let t := (s.setBuf i { s.buf i with refcnt := (s.buf i).refcnt - 1 }).setPc p .idle
  if (s.buf i).refcnt - 1 = 0 then
    { t with links := (s.links.unlink (some i)).pushFront none (some i) }
  else t

/-- One step, on the devices in `U`. -/
def act (U : Dev → Prop) [DecidablePred U] (size : ℕ) :
    BufAct π → Except BufStop (Bcache π)
  | .bget p dev b => if s.pc p = .idle ∧ U dev then s.bget p dev b else .error .blocked
  | .enter p =>
    match s.pc p with
    | .wait i _ _ => if s.lock i = none then s.enter p i else .error .blocked
    | _ => .error .blocked
  | .modify p i c =>
    if s.pc p = .idle ∧ s.lock i = some p then
      .ok ((s.setBuf i { s.buf i with data := c }).setTouched i true)
    else .error .blocked
  | .logWrite p i =>
    if s.pc p = .idle ∧ s.lock i = some p then s.logWrite size i else .error .blocked
  | .bwrite p i => if s.pc p = .idle ∧ s.lock i = some p then s.bwrite i else .error .blocked
  | .brelse p i =>
    if s.pc p = .idle ∧ s.lock i = some p ∧ s.touched i = false then .ok (s.brelse p i)
    else .error .blocked
  | .drop p =>
    match s.pc p with
    | .drop i => .ok (s.drop p i)
    | _ => .error .blocked
  | .beginOp =>
    if s.lh.length + (s.outstanding + 1) * maxOpBlocks ≤ logSize then
      .ok { s with outstanding := s.outstanding + 1 }
    else .error .blocked
  | .endOp =>
    if 0 < s.outstanding then .ok { s with outstanding := s.outstanding - 1 } else .error .blocked
  | .erase => if s.outstanding = 0 then .ok { s with lh := [] } else .error .blocked

def boot (disk : Bool → Disk) : Bcache π where
  links := binit
  buf _ := .unused
  lock _ := none
  disk := disk
  lh := []
  outstanding := 0
  pc _ := .idle
  touched _ := false
  left _ _ := none

end Bcache

/-- The buffer cache with `size` blocks of log, used for blocks of the devices in `U`. -/
def bcache (π : Type) [DecidableEq π] (U : Dev → Prop) [DecidablePred U] (size : ℕ) :
    Machine (Bcache π) (BufAct π) where
  init s := ∃ disk, s = .boot disk
  step s a := (s.act U size a).toOption

end OperatingSystems
