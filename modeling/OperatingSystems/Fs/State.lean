import OperatingSystems.Fs.Inode
import OperatingSystems.Proc.Basic

/-!
# The state of the file system

The inodes, the inode cache, the table of open files, and for each process its current directory,
its descriptors and how far it is in a system call.

An inode cache entry is kept under the number of its inode: `ref` is its reference count (0 when the
inode is not cached), `valid` and `lock` are its other fields. The program counter `Pc` says between
which two critical sections a process is. A section runs from the acquisition of an inode's
sleep-lock to its release; where a second lock is taken inside, the section is cut there, and the
counter says which locks are held.
-/

namespace OperatingSystems

open Function

def nfile : ℕ := 100

def nofile : ℕ := 16

def ninode : ℕ := 50

inductive Make
  | open
  | mkdir
  | mknod (major minor : BitVec 32)

def Make.type : Make → FileType
  | .open => .file
  | .mkdir => .dir
  | .mknod _ _ => .dev

def Make.major : Make → BitVec 16
  | .mknod major _ => major.setWidth 16
  | _ => 0

def Make.minor : Make → BitVec 16
  | .mknod _ minor => minor.setWidth 16
  | _ => 0

/-- The callers of `namex`, with what they keep until it returns. `exec` is given how often its
reads of a device wait for input, and whether the rest of it succeeds. -/
inductive Caller (n : ℕ)
  | open (omode : BitVec 32)
  | exec (reads : ℕ) (ok : Bool)
  | chdir
  /-- `namei(old)` in `sys_link` -/
  | linkOld (new : Bytes)
  /-- `nameiparent(new, name)` in `sys_link` -/
  | linkNew (ip : Fin n)
  | unlink
  | create (m : Make)

inductive Pc (n : ℕ)
  /-- Outside of the kernel; the last call returned `r`. -/
  | ret (r : ℤ)
  /-- Not a process, or one that has exited. -/
  | dead
  | namex (k : Caller n) (path : Bytes)
  /-- At the head of the loop of `namex`. -/
  | walk (k : Caller n) (ip : Fin n) (path : Bytes)
  /-- At the start of `iput(i)`, which is followed by `t`. -/
  | iput (i : Fin n) (t : Pc n)
  /-- In `iput(i)`, behind `releasesleep`. -/
  | drop (i : Fin n) (t : Pc n)
  /-- In `sys_open`, before `ilock(ip)`. -/
  | openLock (ip : Fin n) (omode : BitVec 32)
  /-- In `exec`, before `ilock(ip)`; also where `consoleread` takes the lock back. -/
  | execLock (ip : Fin n) (reads : ℕ) (ok : Bool)
  /-- In `sys_chdir`, before `ilock(ip)`. -/
  | chdirLock (ip : Fin n)
  /-- In `sys_link`, before the first `ilock(ip)`. -/
  | linkLock (ip : Fin n) (new : Bytes)
  /-- In `sys_link`, before `ilock(dp)`. -/
  | linkDir (ip dp : Fin n) (name : Bytes)
  /-- In `sys_link`, before `iunlockput(dp)` and `goto bad`; holds `dp`. -/
  | linkUndo (ip dp : Fin n)
  /-- In `sys_link`, at `bad`. -/
  | linkBad (ip : Fin n)
  /-- In `sys_unlink`, before `ilock(dp)`. -/
  | unlinkDir (dp : Fin n) (name : Bytes)
  /-- In `sys_unlink`, before `ilock(ip)`; holds `dp`. -/
  | unlinkIp (dp ip : Fin n) (off : ℕ)
  /-- In `sys_unlink`, at `bad`; holds `dp`. -/
  | unlinkBad (dp : Fin n)
  /-- In `sys_unlink`, before `ip->nlink--`; holds `ip`. -/
  | unlinkDec (ip : Fin n)
  /-- In `create`, before `ilock(dp)`. -/
  | createDir (m : Make) (dp : Fin n) (name : Bytes)
  /-- In `create`, before `ilock(ip)` of an inode that exists. -/
  | createFound (m : Make) (ip : Fin n)
  /-- In `create`, before `ilock(ip)` of a new inode; holds `dp`. -/
  | createNew (m : Make) (dp : Fin n) (name : Bytes) (ip : Fin n)
  /-- Behind the return of `create`; holds `ip`. -/
  | created (m : Make) (ip : Fin n)
  /-- In the loop of `exit` over the descriptors. -/
  | exit

/-- Whether `namex` stops at the parent of the last element. -/
def Caller.parent {n : ℕ} : Caller n → Bool
  | .linkNew _ | .unlink | .create _ => true
  | _ => false

/-- Where a caller goes on when `namex` returns an inode, with the last element of the path. -/
def Caller.found {n : ℕ} (ip : Fin n) (name : Bytes) : Caller n → Pc n
  | .open omode => .openLock ip omode
  | .exec reads ok => .execLock ip reads ok
  | .chdir => .chdirLock ip
  | .linkOld new => .linkLock ip new
  | .linkNew old => .linkDir old ip name
  | .unlink => .unlinkDir ip name
  | .create m => .createDir m ip name

/-- Where a caller goes on when `namex` returns 0. -/
def Caller.fail {n : ℕ} : Caller n → Pc n
  | .linkNew old => .linkBad old
  | _ => .ret (-1)

/-- `struct file` of type `FD_INODE`; free when `ref` is 0. -/
structure File (n : ℕ) where
  ref : ℕ
  ip : Fin n

structure FsProc (n : ℕ) where
  cwd : Option (Fin n)
  ofile : Fin nofile → Option (Fin nfile)
  pc : Pc n

def FsProc.goto {n : ℕ} (x : FsProc n) (pc : Pc n) : FsProc n := { x with pc := pc }

structure Fs (n : ℕ) where
  inode : Inodes n
  ref : Fin n → ℕ
  valid : Fin n → Bool
  lock : Fin n → Option (Fin nproc)
  file : Fin nfile → File n
  proc : Fin nproc → FsProc n

def rootino {n : ℕ} [NeZero n] : Fin n := 0

namespace Fs

variable {n : ℕ} (s : Fs n)

/-! ## The inode cache -/

def cached : ℕ := (List.finRange n).countP fun i ↦ 0 < s.ref i

def idup (i : Fin n) : Fs n := { s with ref := update s.ref i (s.ref i + 1) }

/-- The entry that `iget` finds or recycles. -/
def got (i : Fin n) : Fs n :=
  { s with
    ref := update s.ref i (s.ref i + 1)
    valid := if s.ref i = 0 then update s.valid i false else s.valid }

def iget (i : Fin n) : Except FsStop (Fs n) :=
  if s.ref i = 0 ∧ ninode ≤ s.cached then .error (.panic .igetNoInodes) else .ok (s.got i)

def load (i : Fin n) : Fs n := { s with valid := update s.valid i true }

/-- `ilock`, by a process that releases the lock at the end of the section. -/
def ilock (i : Fin n) : Except FsStop (Fs n) :=
  if s.ref i = 0 then .error (.panic .ilock)
  else if (s.lock i).isSome then .error .blocked
  else if !s.valid i && (s.inode i).type.isNone then .error (.panic .ilockNoType)
  else .ok (s.load i)

/-- The section ends with the lock of `i` still held by `p`. -/
def keep (p : Fin nproc) (i : Fin n) : Fs n :=
  { s with lock := update s.lock i (some p) }

def iunlock (i : Fin n) : Fs n := { s with lock := update s.lock i none }

def setInodes (I : Inodes n) : Fs n := { s with inode := I }

/-- What `iput` does under the lock of `i`. -/
def iputSection (i : Fin n) : Except FsStop (Fs n) :=
  if (s.lock i).isSome then .error .blocked
  else if s.valid i ∧ (s.inode i).nlink = 0 ∧ s.ref i = 1 then
    .ok { s with inode := s.inode.ifree i, valid := update s.valid i false }
  else .ok s

/-- What `iput` does behind it. -/
def decRef (i : Fin n) : Fs n := { s with ref := update s.ref i (s.ref i - 1) }

/-! ## Processes -/

def setPc (p : Fin nproc) (pc : Pc n) : Fs n :=
  { s with proc := update s.proc p ((s.proc p).goto pc) }

def filealloc : Option (Fin nfile) := (List.finRange nfile).find? fun f ↦ (s.file f).ref = 0

def fdalloc (p : Fin nproc) : Option (Fin nofile) :=
  (List.finRange nofile).find? fun fd ↦ ((s.proc p).ofile fd).isNone

end Fs

end OperatingSystems
