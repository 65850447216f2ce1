import OperatingSystems.Fs.Block
import OperatingSystems.Fs.State
import OperatingSystems.Lib.Transition

/-!
# The inode cache

The inode layer of `fs.c` as a machine in which any number of processes interleave. A step is a
section between two lock operations: what is done under `icache.lock`, or what is done between
taking and releasing an inode's sleep-lock. `iput` is cut into all its sections, and `ialloc` into
the one that marks the on-disk inode and the `iget` after it.

A process is told apart from the others by the references it was handed out and has not put, and by
how far it is in `iput` or `ialloc`. A function that is given an inode is called by a process that
has a reference to it, and the functions for the content only by the holder of its lock.
-/

namespace OperatingSystems

open Function

abbrev CacheSlot := Fin ninode

instance : NeZero ninode := ⟨by decide⟩

/-- `struct inode` without its lock. `fields` is the copy of the on-disk inode. -/
structure CachedInode (n : ℕ) where
  dev : Dev
  inum : Fin n
  ref : ℕ
  valid : Bool
  fields : Dinode

/-- How far a process is in `iput` and `ialloc`. -/
inductive IcachePc (n : ℕ)
  | run
  /-- `iput` has taken the lock -/
  | put (e : CacheSlot)
  /-- `iput` has found no links and has read `r = ip->ref` -/
  | counted (e : CacheSlot) (r : ℕ)
  /-- `iput` has freed the on-disk inode -/
  | freed (e : CacheSlot)
  /-- `iput` has released the lock -/
  | drop (e : CacheSlot)
  /-- `ialloc` has marked the on-disk inode -/
  | alloc (dev : Dev) (i : Fin n)
  deriving DecidableEq

structure Icache (n : ℕ) (π : Type) where
  disk : Dev → FsDisk n
  inode : CacheSlot → CachedInode n
  /-- The sleep-lock of an entry. -/
  lock : CacheSlot → Option π
  /-- The references that a process was handed out and has not put. -/
  refs : π → CacheSlot → ℕ
  pc : π → IcachePc n

inductive IcacheAct (n : ℕ) (π : Type)
  | iget (p : π) (dev : Dev) (i : Fin n)
  | idup (p : π) (e : CacheSlot)
  | ilock (p : π) (e : CacheSlot)
  | iunlock (p : π) (e : CacheSlot)
  | readi (p : π) (e : CacheSlot) (off len : Word)
  | writei (p : π) (e : CacheSlot) (off len : Word) (src : ℕ → BitVec 8)
  | itrunc (p : π) (e : CacheSlot)
  /-- The assignments to `major`, `minor` and `nlink` in `sysfile.c`, with the `iupdate` after
  them. -/
  | update (p : π) (e : CacheSlot) (major minor nlink : BitVec 16)
  | iput (p : π) (e : CacheSlot)
  /-- The section of `ialloc` that finds inode `i` free. While it looks for one, others may take and
  free inodes that it has passed, so that this need not be the first free inode. -/
  | ialloc (p : π) (dev : Dev) (i : Fin n) (type : BitVec 16)
  /-- The next section of the call that the process is in. -/
  | next (p : π)

inductive IcacheStop
  /-- The lock is taken, or the caller may not make the call. -/
  | blocked
  | panic (p : BlockPanic)
  deriving DecidableEq

namespace Icache

variable {n : ℕ} {π : Type} [DecidableEq π] (L : Layout) (s : Icache n π)

/-! ## Updates of the state -/

@[simps] def setInode (e : CacheSlot) (v : CachedInode n) : Icache n π :=
  { s with inode := update s.inode e v }

@[simps] def setLock (e : CacheSlot) (o : Option π) : Icache n π :=
  { s with lock := update s.lock e o }

@[simps] def setPc (p : π) (c : IcachePc n) : Icache n π :=
  { s with pc := update s.pc p c }

@[simps] def setDisk (dev : Dev) (d : FsDisk n) : Icache n π :=
  { s with disk := update s.disk dev d }

/-- Process `p` has `k` references to the entry. -/
@[simps] def setRefs (p : π) (e : CacheSlot) (k : ℕ) : Icache n π :=
  { s with refs := update s.refs p (update (s.refs p) e k) }

def diskOf (e : CacheSlot) : FsDisk n := s.disk (s.inode e).dev

def dinodeOf (e : CacheSlot) : Dinode := (s.diskOf e).dinode (s.inode e).inum

def store (e : CacheSlot) (r : FsDisk n × Dinode) : Icache n π :=
  (s.setDisk (s.inode e).dev r.1).setInode e { s.inode e with fields := r.2 }

def give (p : π) (e : CacheSlot) : Icache n π := s.setRefs p e (s.refs p e + 1)

/-! ## The sections -/

def lookup (dev : Dev) (i : Fin n) : Option CacheSlot :=
  (List.finRange ninode).find? fun e ↦
    decide (0 < (s.inode e).ref ∧ (s.inode e).dev = dev ∧ (s.inode e).inum = i)

def empty : Option CacheSlot := (List.finRange ninode).find? fun e ↦ decide ((s.inode e).ref = 0)

def iget (p : π) (dev : Dev) (i : Fin n) : Except IcacheStop (Icache n π) :=
  match s.lookup dev i with
  | some e => .ok ((s.setInode e { s.inode e with ref := (s.inode e).ref + 1 }).give p e)
  | none =>
    match s.empty with
    | none => .error (.panic .noInodes)
    | some e =>
      .ok ((s.setInode e ⟨dev, i, 1, false, (s.inode e).fields⟩).give p e)

/-- `ilock` once the lock is free. -/
def ilock (p : π) (e : CacheSlot) : Except IcacheStop (Icache n π) :=
  if (s.inode e).valid then .ok (s.setLock e (some p))
  else if (s.dinodeOf e).type = 0 then .error (.panic .noType)
  else .ok ((s.setLock e (some p)).setInode e
    { s.inode e with valid := true, fields := s.dinodeOf e })

/-- Work of the holder of the lock on the disk and the cached fields. -/
def work (e : CacheSlot) (r : Except BlockPanic (FsDisk n × Dinode)) :
    Except IcacheStop (Icache n π) :=
  match r with
  | .ok r => .ok (s.store e r)
  | .error p => .error (.panic p)

/-- `ip->type = 0; iupdate(ip)` after `itrunc(ip)`. -/
def freeInode (d : FsDisk n) (i : Fin n) (ip : Dinode) : Except BlockPanic (FsDisk n × Dinode) := do
  let r ← d.itrunc i ip
  .ok (r.1.iupdate i { r.2 with type := 0 }, { r.2 with type := 0 })

def release (p : π) (e : CacheSlot) : Icache n π := (s.setLock e none).setPc p (.drop e)

def next (p : π) : Except IcacheStop (Icache n π) :=
  match s.pc p with
  | .run => .error .blocked
  | .put e =>
    if (s.inode e).valid = true ∧ (s.inode e).fields.nlink = 0 then
      .ok (s.setPc p (.counted e (s.inode e).ref))
    else .ok (s.release p e)
  | .counted e r =>
    if r = 1 then
      (s.setPc p (.freed e)).work e (freeInode (s.diskOf e) (s.inode e).inum (s.inode e).fields)
    else .ok (s.release p e)
  | .freed e => .ok ((s.setInode e { s.inode e with valid := false }).release p e)
  | .drop e =>
    .ok (((s.setInode e { s.inode e with ref := (s.inode e).ref - 1 }).setRefs p e
      (s.refs p e - 1)).setPc p .run)
  | .alloc dev i => (s.setPc p .run).iget p dev i

/-- The process may call a function that takes a reference to the entry. -/
def CanUse (p : π) (e : CacheSlot) : Prop := s.pc p = .run ∧ 0 < s.refs p e

def CanAccess (p : π) (e : CacheSlot) : Prop := s.pc p = .run ∧ s.lock e = some p

instance (p : π) (e : CacheSlot) : Decidable (s.CanUse p e) := inferInstanceAs (Decidable (_ ∧ _))

instance (p : π) (e : CacheSlot) : Decidable (s.CanAccess p e) :=
  inferInstanceAs (Decidable (_ ∧ _))

def act : IcacheAct n π → Except IcacheStop (Icache n π)
  | .iget p dev i => if s.pc p = .run then s.iget p dev i else .error .blocked
  | .idup p e =>
    if s.CanUse p e then
      .ok ((s.setInode e { s.inode e with ref := (s.inode e).ref + 1 }).give p e)
    else .error .blocked
  | .ilock p e => if s.CanUse p e ∧ s.lock e = none then s.ilock p e else .error .blocked
  | .iunlock p e => if s.CanAccess p e then .ok (s.setLock e none) else .error .blocked
  | .readi p e off len =>
    if s.CanAccess p e then
      s.work e (((s.diskOf e).readi L (s.inode e).fields off len).map fun r ↦ (r.1, r.2.1))
    else .error .blocked
  | .writei p e off len src =>
    if s.CanAccess p e then
      s.work e ((s.diskOf e).writei L (s.inode e).inum (s.inode e).fields off len src)
    else .error .blocked
  | .itrunc p e =>
    if s.CanAccess p e then s.work e ((s.diskOf e).itrunc (s.inode e).inum (s.inode e).fields)
    else .error .blocked
  | .update p e major minor nlink =>
    if s.CanAccess p e then
      let ip := { (s.inode e).fields with major := major, minor := minor, nlink := nlink }
      .ok (s.store e ((s.diskOf e).iupdate (s.inode e).inum ip, ip))
    else .error .blocked
  | .iput p e =>
    if s.CanUse p e ∧ s.lock e = none then .ok ((s.setLock e (some p)).setPc p (.put e))
    else .error .blocked
  | .ialloc p dev i type =>
    if s.pc p = .run ∧ type ≠ 0 ∧ ((s.disk dev).dinode i).type = 0 then
      .ok ((s.setDisk dev ((s.disk dev).iupdate i { Dinode.zero with type := type })).setPc p
        (.alloc dev i))
    else .error .blocked
  | .next p => s.next p

/-- A freshly booted system: nothing is referenced, locked or in progress. -/
structure Booted (s : Icache n π) : Prop where
  ref : ∀ e, (s.inode e).ref = 0
  valid : ∀ e, (s.inode e).valid = false
  lock : ∀ e, s.lock e = none
  refs : ∀ p e, s.refs p e = 0
  pc : ∀ p, s.pc p = .run

def boot (i₀ : Fin n) (disk : Dev → FsDisk n) : Icache n π where
  disk := disk
  inode _ := ⟨0, i₀, 0, false, .zero⟩
  lock _ := none
  refs _ _ := 0
  pc _ := .run

omit [DecidableEq π] in
theorem booted_boot (i₀ : Fin n) (disk : Dev → FsDisk n) : (boot i₀ disk : Icache n π).Booted :=
  ⟨fun _ ↦ rfl, fun _ ↦ rfl, fun _ ↦ rfl, fun _ _ ↦ rfl, fun _ ↦ rfl⟩

end Icache

/-- The inode layer, started on disks that satisfy `I`. -/
def icache {n : ℕ} (L : Layout) (π : Type) [DecidableEq π] (I : FsDisk n → Prop) :
    Machine (Icache n π) (IcacheAct n π) where
  init s := s.Booted ∧ ∀ dev, I (s.disk dev)
  step s a := (s.act L a).toOption

end OperatingSystems
